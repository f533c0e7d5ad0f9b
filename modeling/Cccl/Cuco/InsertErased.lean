/-
# `insert` into a table with erased slots

An erased slot is free to be used again, and yet a key may come after it in the search for the key.
So an insertion that takes the first free slot it comes to may have overlooked its key.

Here one call of `insert` runs alone, through all its windows.  It does what it should unless an erased
slot stands in its way, and both forms of it fail then, each in its own manner: a single thread takes an
erased slot that comes before its key, which is then there twice; a group tries to exchange an erased
slot for its key as if it were empty, fails, and scans the same window again, forever.  The condition is
exact (`insert_erased_iff`).
-/
import Cccl.Cuco.InsertSafe

namespace Cccl.Cuco

variable {K V : Type*} [DecidableEq K] [DecidableEq V]

/-! ## 1. One call alone -/

namespace MapRef

variable (R : MapRef K V) (cas : Cas) (key : K) (payload : V)

/-- A claim of a slot, run to its end.  With too little fuel there is no result. -/
def casRun (expected : K × V) : ℕ → CasPc K → K × V → Option ((K × V) × InsertResult)
  | 0, _, _ => none
  | fuel + 1, pc, slot =>
    match R.casStep cas expected (key, payload) pc slot with
    | (slot', .inr result) => some (slot', result)
    | (slot', .inl pc') => casRun expected fuel pc' slot'

/-- The loop of `insert` over the slots of a bucket, with `m` slots to go: the table, and what is
returned if the loop is left that way. -/
def scalarInsertBucket (fuel j : ℕ) : ℕ → ℕ → Slots K V → Option (Slots K V × Option Bool)
  | 0, _, slots => some (slots, none)
  | m + 1, i, slots =>
    let slot := R.slotAt key j 0 i
    match R.insertPredicate key (slots slot).1 with
    | .equal => some (slots, some false)
    | .available =>
      match R.casRun cas key payload (slots slot) fuel .start (slots slot) with
      | none => none
      | some (x, .success) => some (Function.update slots slot x, some true)
      | some (x, .duplicate) => some (Function.update slots slot x, some false)
      | some (x, .continue_) => scalarInsertBucket fuel j m (i + 1) (Function.update slots slot x)
    | _ => scalarInsertBucket fuel j m (i + 1) slots

/-- `insert` of a single thread, from the window `j` on. -/
def scalarInsert : ℕ → ℕ → Slots K V → Option (Slots K V × Bool)
  | 0, _, _ => none
  | fuel + 1, j, slots =>
    match R.scalarInsertBucket cas key payload fuel j R.bucketSize 0 slots with
    | none => none
    | some (slots', some inserted) => some (slots', inserted)
    | some (slots', none) =>
      if R.iterAt key 0 (j + 1) = R.iterAt key 0 0 then some (slots', false)
      else scalarInsert fuel (j + 1) slots'

/-- `insert` of a group, from the window `j` on. -/
def groupInsert : ℕ → ℕ → Slots K V → Option (Slots K V × Bool)
  | 0, _, _ => none
  | fuel + 1, j, slots =>
    let lanes rank :=
      Lane.scan (R.insertPredicate key) (fun i => slots (R.slotAt key j rank i)) R.bucketSize 0
    match firstLane R.cgSize lanes .equal with
    | some _ => some (slots, false)
    | none =>
      match firstLane R.cgSize lanes .available with
      | some (rank, i, _) =>
        let slot := R.slotAt key j rank i
        match R.casRun cas key payload R.emptySlot fuel .start (slots slot) with
        | none => none
        | some (x, .success) => some (Function.update slots slot x, true)
        | some (x, .duplicate) => some (Function.update slots slot x, false)
        | some (x, .continue_) => groupInsert fuel j (Function.update slots slot x)
      | none =>
        if R.iterAt key 0 (j + 1) = R.iterAt key 0 0 then some (slots, false)
        else groupInsert fuel (j + 1) slots

/-- `insert` of either form on a table. -/
def insertAlone (form : Form) (slots : Slots K V) (fuel : ℕ) : Option (Slots K V × Bool) :=
  match form with
  | .scalar => R.scalarInsert cas key payload fuel 0 slots
  | .group => R.groupInsert cas key payload fuel 0 slots

end MapRef

/-! ## 2. What is asked of it, and when it is not met -/

namespace MapRef

variable (R : MapRef K V)

/-- The slots of a table with erased slots: each is empty, erased or holds a key, and the keys are well
placed. -/
structure WithErased (slots : Slots K V) : Prop where
  placed : R.WellPlaced slots
  free : ∀ slot < R.capacity, ¬ R.Occupied slots slot →
    slots slot = R.emptySlot ∨ slots slot = R.erasedSlot

/-- The call ends; if the key is there it returns `false` and leaves the table as it is, and otherwise,
if a slot is free, it stores the pair in a free slot and returns `true`; and no key is then held
twice. -/
def InsertsOnce (cas : Cas) (form : Form) (slots : Slots K V) (key : K) (payload : V) : Prop :=
  ∃ fuel slots' inserted, R.insertAlone cas key payload form slots fuel = some (slots', inserted) ∧
    ((∃ slot < R.capacity, R.Holds slots key slot) → inserted = false ∧ slots' = slots) ∧
    ((∀ slot < R.capacity, ¬ R.Holds slots key slot) →
      (∃ slot < R.capacity, ¬ R.Occupied slots slot) →
      inserted = true ∧ ∃ slot < R.capacity, ¬ R.Occupied slots slot ∧
        slots' = Function.update slots slot (key, payload)) ∧
    ∀ a < R.capacity, ∀ b < R.capacity, R.Occupied slots' a →
      R.Holds slots' (slots' a).1 b → a = b

/-- An erased slot stands in the way.  For a single thread: it comes before the key.  For a group: it
is the first slot that does not hold another key, and no lane of that window finds the key before a free
slot of its bucket. -/
def Blocked (form : Form) (slots : Slots K V) (key : K) : Prop :=
  match form with
  | .scalar => ∃ q < R.capacity, R.Holds slots key (R.probe key q) ∧
      ∃ p < q, (slots (R.probe key p)).1 = R.erasedKey
  | .group => ∃ p < R.capacity, R.Passed slots key p ∧ (slots (R.probe key p)).1 = R.erasedKey ∧
      ¬ ∃ rank < R.cgSize, ∃ i < R.bucketSize,
        R.Holds slots key (R.slotAt key (p / R.stride) rank i) ∧
        ∀ t < i, R.HoldsOther slots key (R.slotAt key (p / R.stride) rank t)

end MapRef

/-! ## 3. Single steps -/

section Claims

variable {R : MapRef K V} {cas : Cas} {key : K} {payload : V} {slots : Slots K V}

theorem MapRef.casRun_self (cas : Cas) (key : K) (payload : V) {slot : K × V} (hvalue : slot.2 = R.emptyValue) (fuel : ℕ) :
    R.casRun cas key payload slot fuel .start slot = some ((key, payload), .success) ∨
      R.casRun cas key payload slot fuel .start slot = none ∧ fuel < 2 := by
  match fuel with
  | 0 => exact Or.inr ⟨rfl, by omega⟩
  | 1 => cases cas <;> simp [casRun, casStep]
  | fuel + 2 => cases cas <;> simp [casRun, casStep, hvalue]

/-- An erased slot that is compared with an empty one is not claimed, and stays erased. -/
theorem MapRef.casRun_erased (cas : Cas) (payload : V) (hsentinels : R.emptyKey ≠ R.erasedKey)
    (hkey : R.keyEqual key R.erasedKey = false) (fuel : ℕ) :
    R.casRun cas key payload R.emptySlot fuel .start R.erasedSlot =
        some (R.erasedSlot, .continue_) ∨
      R.casRun cas key payload R.emptySlot fuel .start R.erasedSlot = none := by
  match fuel with
  | 0 => exact Or.inr rfl
  | 1 =>
    cases cas <;> simp [casRun, casStep, emptySlot, erasedSlot, hsentinels.symm, lostTo, equalTo, hkey]
  | 2 =>
    cases cas <;> simp [casRun, casStep, emptySlot, erasedSlot, hsentinels.symm, lostTo, equalTo, hkey]
  | fuel + 3 =>
    cases cas <;> simp [casRun, casStep, emptySlot, erasedSlot, hsentinels.symm, lostTo, equalTo, hkey]

omit [DecidableEq K] [DecidableEq V] in
/-- A loop that only goes on through windows before the one with index `last`. -/
theorem skip_windows {α : Type*} {F : ℕ → ℕ → Option α} {last : ℕ} (hzero : ∀ j, F 0 j = none)
    (hskip : ∀ fuel, ∀ j < last, F (fuel + 1) j = F fuel (j + 1)) :
    ∀ fuel j, j ≤ last →
      F fuel j = if fuel < last - j then none else F (fuel - (last - j)) last
  | 0, j, hj => by
    rcases Nat.eq_or_lt_of_le hj with rfl | hlt
    · simp
    · rw [if_pos (by omega), hzero]
  | fuel + 1, j, hj => by
    rcases Nat.eq_or_lt_of_le hj with rfl | hlt
    · simp
    · rw [hskip fuel j hlt, skip_windows hzero hskip fuel (j + 1) hlt]
      split <;> rename_i hfuel
      · rw [if_pos (by omega)]
      · rw [if_neg (by omega)]
        congr 1
        omega

/-! ## 4. A group -/

theorem MapRef.groupInsert_pass {j : ℕ} (hj : j < R.numGroups)
    (hall : ∀ rank < R.cgSize, ∀ t < R.bucketSize,
      R.HoldsOther slots key (R.slotAt key j rank t)) (fuel : ℕ) :
    R.groupInsert cas key payload (fuel + 1) j slots =
      if j + 1 = R.numGroups then some (slots, false)
      else R.groupInsert cas key payload fuel (j + 1) slots := by
  have hnone : ∀ state, state ≠ .unequal → firstLane R.cgSize (fun rank =>
      Lane.scan (R.insertPredicate key) (fun i => slots (R.slotAt key j rank i)) R.bucketSize 0)
      state = none := by
    intro state hstate
    rw [firstLane_eq_none]
    intro rank hrank i slot hhit
    have hspec := Lane.scan_spec (R.insertPredicate key) (fun i => slots (R.slotAt key j rank i))
      R.bucketSize 0
    rw [hhit] at hspec
    obtain ⟨-, hi, heq, -, -, -⟩ := hspec
    rw [insertPredicate_eq_unequal.mpr (hall rank hrank i (by omega))] at heq
    exact hstate heq.symm
  rw [groupInsert]
  simp only [hnone .equal (by simp), hnone .available (by simp),
    R.iterator_wraps R.cgSize_pos key (Nat.succ_pos j) hj]

omit [DecidableEq V] in
theorem MapRef.scan_laneInv (slots : Slots K V) (key : K) (j rank : ℕ) : R.LaneInv slots key j rank
    (Lane.scan (R.insertPredicate key) (fun i => slots (R.slotAt key j rank i)) R.bucketSize 0) ∧
    (Lane.scan (R.insertPredicate key) (fun i => slots (R.slotAt key j rank i)) R.bucketSize
      0).isFinished R.bucketSize = true ∧
    ∀ i seen, Lane.scan (R.insertPredicate key) (fun i => slots (R.slotAt key j rank i)) R.bucketSize
      0 = .hit i .available seen → ¬ R.Occupied slots (R.slotAt key j rank i) := by
  have hspec := Lane.scan_spec (R.insertPredicate key) (fun i => slots (R.slotAt key j rank i))
    R.bucketSize 0
  split at hspec
  · rename_i i hscan
    rw [hscan]
    refine ⟨⟨by omega, fun t ht => insertPredicate_eq_unequal.mp (hspec.2 t (by omega) (by omega))⟩,
      by simp [Lane.isFinished, hspec.1], by simp⟩
  · rename_i i state slot hscan
    obtain ⟨-, hi, hstate, hne, rfl, hbefore⟩ := hspec
    rw [hscan]
    have hother : ∀ t < i, R.HoldsOther slots key (R.slotAt key j rank t) :=
      fun t ht => insertPredicate_eq_unequal.mp (hbefore t (by omega) ht)
    refine ⟨⟨by omega, hother, ?_⟩, rfl, fun i' seen hhit => ?_⟩
    · rcases insertPredicate_spec slots key (R.slotAt key j rank i) with hst | hst | hst
      · refine Or.inr ⟨by rw [← hstate, hst.1], ?_⟩
        have hfree := hst.2
        unfold Occupied at hfree
        rwa [not_and_or, not_not, not_not] at hfree
      · exact Or.inl ⟨by rw [← hstate, hst.1], hst.2⟩
      · exact absurd (hstate.symm.trans hst.1) hne
    · obtain ⟨rfl, rfl, -⟩ : i = i' ∧ state = .available ∧ _ := by simpa using hhit
      exact insertPredicate_eq_available.mp hstate

theorem MapRef.groupInsert_found {j rank i : ℕ} (hrank : rank < R.cgSize) (hi : i < R.bucketSize)
    (hholds : R.Holds slots key (R.slotAt key j rank i))
    (hbefore : ∀ t < i, R.HoldsOther slots key (R.slotAt key j rank t)) (fuel : ℕ) :
    R.groupInsert cas key payload (fuel + 1) j slots = some (slots, false) := by
  rw [groupInsert]
  simp only
  split
  · rfl
  rename_i hnone
  -- the lane stops at the key
  have hspec := Lane.scan_spec (R.insertPredicate key) (fun i => slots (R.slotAt key j rank i))
    R.bucketSize 0
  have hequal := insertPredicate_eq_equal.mpr hholds
  split at hspec
  · have := hspec.2 i (by omega) (by omega)
    rw [hequal] at this
    exact absurd this (by simp)
  · rename_i i' state slot hscan
    obtain ⟨-, -, hstate, hne, -, hall⟩ := hspec
    rcases lt_trichotomy i' i with hlt | rfl | hgt
    · rw [insertPredicate_eq_unequal.mpr (hbefore i' hlt)] at hstate
      exact absurd hstate.symm hne
    · rw [hequal] at hstate
      rw [← hstate] at hscan
      exact absurd hscan (firstLane_eq_none.mp hnone rank hrank _ _)
    · have := hall i (by omega) hgt
      rw [hequal] at this
      exact absurd this (by simp)

/-- The first slot without another key is free, and no lane finds the key: the group tries to claim
it. -/
theorem MapRef.groupInsert_claim (cas : Cas) (payload : V) {p : ℕ} (hpassed : R.Passed slots key p)
    (hfree : ¬ R.Occupied slots (R.probe key p))
    (hnofind : ¬ ∃ rank < R.cgSize, ∃ i < R.bucketSize,
      R.Holds slots key (R.slotAt key (p / R.stride) rank i) ∧
      ∀ t < i, R.HoldsOther slots key (R.slotAt key (p / R.stride) rank t)) (fuel : ℕ) :
    R.groupInsert cas key payload (fuel + 1) (p / R.stride) slots =
      match R.casRun cas key payload R.emptySlot fuel .start (slots (R.probe key p)) with
      | none => none
      | some (x, .success) => some (Function.update slots (R.probe key p) x, true)
      | some (x, .duplicate) => some (Function.update slots (R.probe key p) x, false)
      | some (x, .continue_) => R.groupInsert cas key payload fuel (p / R.stride)
          (Function.update slots (R.probe key p) x) := by
  have hwindow : R.Passed slots key (p / R.stride * R.stride) := fun q hq =>
    hpassed q (hq.trans_le (Nat.div_mul_le_self _ _))
  have hinv := fun rank (_ : rank < R.cgSize) =>
    (scan_laneInv (R := R) slots key (p / R.stride) rank).1
  have hfinished := fun rank (_ : rank < R.cgSize) =>
    (scan_laneInv (R := R) slots key (p / R.stride) rank).2.1
  rw [groupInsert]
  simp only
  split
  · rename_i hit hequal
    obtain ⟨rank, i, seen⟩ := hit
    obtain ⟨hrank, hhit, -⟩ := firstLane_spec hequal
    have hlane := hinv rank hrank
    rw [hhit] at hlane
    obtain ⟨hi, hbefore, ⟨-, hholds⟩ | ⟨hno, -⟩⟩ := hlane
    · exact absurd ⟨rank, hrank, i, hi, hholds, hbefore⟩ hnofind
    · exact absurd hno (by simp)
  rename_i hequal
  split
  · -- the slot found is the first one
    rename_i hit rank i seen havailable
    obtain ⟨hrank, hi, hpassed', -⟩ :=
      passed_of_available hwindow hinv hfinished hequal havailable
    have hfree' := (scan_laneInv slots key (p / R.stride) rank).2.2 i seen (firstLane_spec havailable).2.1
    have hslot := R.slotAt_eq hrank hi key (p / R.stride)
    have heq : p / R.stride * R.stride + rank * R.bucketSize + i = p := by
      rw [hslot] at hfree'
      rcases lt_trichotomy (p / R.stride * R.stride + rank * R.bucketSize + i) p with
        hlt | heq | hgt
      · exact absurd (hpassed _ hlt).1 hfree'
      · exact heq
      · exact absurd (hpassed' p hgt).1 hfree
    rw [heq] at hslot
    rw [hslot]
  · rename_i havailable
    have hnext := passed_of_none hwindow hinv hfinished hequal havailable
    have hlt : p < (p / R.stride + 1) * R.stride := by
      rw [Nat.mul_comm]
      exact Nat.lt_mul_div_succ p R.stride_pos
    exact absurd (hnext p hlt).1 hfree

/-! ## 5. A single thread -/

theorem MapRef.scalarInsertBucket_pass {j fuel : ℕ} : ∀ d m i,
    (∀ t, i ≤ t → t < i + d → R.HoldsOther slots key (R.slotAt key j 0 t)) →
      R.scalarInsertBucket cas key payload fuel j (m + d) i slots =
        R.scalarInsertBucket cas key payload fuel j m (i + d) slots
  | 0, m, i, _ => rfl
  | d + 1, m, i, hall => by
    have hunequal := insertPredicate_eq_unequal.mpr (hall i le_rfl (by omega))
    rw [← Nat.add_assoc, scalarInsertBucket]
    simp only [hunequal]
    rw [scalarInsertBucket_pass d m (i + 1) fun t h1 h2 => hall t (by omega) (by omega)]
    congr 1
    omega

theorem MapRef.scalarInsert_pass {j : ℕ} (hj : j < R.numGroups)
    (hall : ∀ t < R.bucketSize, R.HoldsOther slots key (R.slotAt key j 0 t)) (fuel : ℕ) :
    R.scalarInsert cas key payload (fuel + 1) j slots =
      if j + 1 = R.numGroups then some (slots, false)
      else R.scalarInsert cas key payload fuel (j + 1) slots := by
  have hpass : R.scalarInsertBucket cas key payload fuel j R.bucketSize 0 slots =
      some (slots, none) := by
    rw [← Nat.zero_add R.bucketSize, scalarInsertBucket_pass _ _ _ fun t _ ht => hall t (by omega)]
    rfl
  rw [scalarInsert, hpass]
  simp only [R.iterator_wraps R.cgSize_pos key (Nat.succ_pos j) hj]

theorem MapRef.scalarInsert_stop (cas : Cas) (payload : V) (hone : R.cgSize = 1) {p : ℕ} (hpassed : R.Passed slots key p)
    (fuel : ℕ) :
    (R.Holds slots key (R.probe key p) →
      R.scalarInsert cas key payload (fuel + 1) (p / R.stride) slots = some (slots, false)) ∧
    (¬ R.Occupied slots (R.probe key p) → (slots (R.probe key p)).2 = R.emptyValue →
      R.scalarInsert cas key payload (fuel + 1) (p / R.stride) slots =
          some (Function.update slots (R.probe key p) (key, payload), true) ∨
        R.scalarInsert cas key payload (fuel + 1) (p / R.stride) slots = none ∧ fuel < 2) := by
  have hstride : R.stride = R.bucketSize := by rw [Probing.stride, hone, Nat.one_mul]
  have hi : p % R.stride < R.bucketSize := by
    rw [← hstride]
    exact Nat.mod_lt _ R.stride_pos
  have hslot : R.slotAt key (p / R.stride) 0 (p % R.stride) = R.probe key p := by
    rw [R.slotAt_eq R.cgSize_pos hi, Nat.zero_mul, Nat.add_zero, Nat.div_add_mod']
  obtain ⟨m, hm⟩ : ∃ m, R.bucketSize = m + 1 + p % R.stride :=
    ⟨R.bucketSize - p % R.stride - 1, by omega⟩
  have hbefore : ∀ t, 0 ≤ t → t < 0 + p % R.stride →
      R.HoldsOther slots key (R.slotAt key (p / R.stride) 0 t) := by
    intro t _ ht
    have hp := Nat.div_add_mod' p R.stride
    rw [R.slotAt_eq R.cgSize_pos (by omega), Nat.zero_mul, Nat.add_zero]
    exact hpassed _ (by omega)
  have hbucket : R.scalarInsertBucket cas key payload fuel (p / R.stride) R.bucketSize 0 slots =
      R.scalarInsertBucket cas key payload fuel (p / R.stride) (m + 1) (p % R.stride) slots := by
    rw [hm, scalarInsertBucket_pass _ _ _ hbefore, Nat.zero_add]
  refine ⟨fun hholds => ?_, fun hfree hvalue => ?_⟩
  · rw [scalarInsert, hbucket, scalarInsertBucket]
    simp only [hslot, insertPredicate_eq_equal.mpr hholds]
  · rw [scalarInsert, hbucket, scalarInsertBucket]
    simp only [hslot, insertPredicate_eq_available.mpr hfree]
    rcases casRun_self cas key payload hvalue fuel with hcas | ⟨hcas, hfuel⟩
    · exact Or.inl (by rw [hcas])
    · exact Or.inr ⟨by rw [hcas], hfuel⟩

/-! ## 6. The whole search -/

omit [DecidableEq V] in
/-- Either all slots hold other keys, or one is the first that does not. -/
theorem MapRef.first_stop (slots : Slots K V) (key : K) :
    (∀ p < R.capacity, R.HoldsOther slots key (R.probe key p)) ∨
      ∃ p < R.capacity, R.Passed slots key p ∧
        (R.Holds slots key (R.probe key p) ∨ ¬ R.Occupied slots (R.probe key p)) := by
  rcases Classical.em (∃ p, p < R.capacity ∧ ¬ R.HoldsOther slots key (R.probe key p)) with h | h
  · right
    obtain ⟨hlt, hstop⟩ := Nat.find_spec h
    refine ⟨Nat.find h, hlt, fun q hq => ?_, ?_⟩
    · by_contra hother
      exact Nat.find_min h hq ⟨hq.trans hlt, hother⟩
    · rcases insertPredicate_spec slots key (R.probe key (Nat.find h)) with hst | hst | hst
      · exact Or.inr hst.2
      · exact Or.inl hst.2
      · exact absurd hst.2 hstop
  · left
    intro p hp
    by_contra hother
    exact h ⟨p, hp, hother⟩

theorem MapRef.insertAlone_skip (cas : Cas) (payload : V) (form : Form) {J : ℕ} (hJ : J < R.numGroups)
    (hpassed : R.Passed slots key (J * R.stride)) (fuel : ℕ) :
    R.insertAlone cas key payload form slots fuel =
      if fuel < J then none
      else match form with
        | .scalar => R.scalarInsert cas key payload (fuel - J) J slots
        | .group => R.groupInsert cas key payload (fuel - J) J slots := by
  have hother : ∀ j < J, ∀ rank < R.cgSize, ∀ t < R.bucketSize,
      R.HoldsOther slots key (R.slotAt key j rank t) := by
    intro j hj rank hrank t ht
    have hlane := R.lane_lt hrank ht
    have hle := Nat.mul_le_mul_right R.stride hj
    rw [Nat.succ_mul] at hle
    rw [R.slotAt_eq hrank ht]
    exact hpassed _ (by omega)
  cases form with
  | scalar =>
    refine skip_windows (F := fun fuel j => R.scalarInsert cas key payload fuel j slots)
      (fun _ => rfl) (fun fuel j hj => ?_) fuel 0 (Nat.zero_le J)
    rw [scalarInsert_pass (hj.trans hJ) (hother j hj 0 R.cgSize_pos), if_neg (by omega)]
  | group =>
    refine skip_windows (F := fun fuel j => R.groupInsert cas key payload fuel j slots)
      (fun _ => rfl) (fun fuel j hj => ?_) fuel 0 (Nat.zero_le J)
    rw [groupInsert_pass (hj.trans hJ) (hother j hj), if_neg (by omega)]

/-- A call that returns `false` and leaves the table as it is does what it should if the key is there or
no slot is free. -/
theorem MapRef.WithErased.insertsOnce_of_unchanged (h : R.WithErased slots) {form : Form} {fuel : ℕ}
    (hrun : R.insertAlone cas key payload form slots fuel = some (slots, false))
    (hreason : (∃ slot < R.capacity, R.Holds slots key slot) ∨
      ∀ slot < R.capacity, R.Occupied slots slot) :
    R.InsertsOnce cas form slots key payload := by
  refine ⟨fuel, slots, false, hrun, fun _ => ⟨rfl, rfl⟩, fun habsent hfree => ?_,
    fun a ha b hb hocc hholds => h.placed.unique ha hb hocc hholds⟩
  obtain ⟨slot, hslot, hfree⟩ := hfree
  rcases hreason with ⟨slot', hslot', hholds⟩ | hfull
  · exact absurd hholds (habsent slot' hslot')
  · exact absurd (hfull slot hslot) hfree

/-- A call that claims the first slot without another key for a key that is nowhere does what it
should. -/
theorem MapRef.WithErased.insertsOnce_of_claim (h : R.WithErased slots) {form : Form} {fuel p : ℕ}
    (hp : p < R.capacity) (hpassed : R.Passed slots key p)
    (hfree : ¬ R.Occupied slots (R.probe key p))
    (habsent : ∀ slot < R.capacity, ¬ R.Holds slots key slot) (hkey : key ≠ R.emptyKey)
    (hrun : R.insertAlone cas key payload form slots fuel =
      some (Function.update slots (R.probe key p) (key, payload), true)) :
    R.InsertsOnce cas form slots key payload := by
  have hplaced := h.placed.claim hp hpassed hfree habsent hkey payload
  refine ⟨fuel, _, true, hrun, ?_, fun _ _ => ⟨rfl, _, R.probe_lt _ _, hfree, rfl⟩,
    fun a ha b hb hocc hholds => hplaced.unique ha hb hocc hholds⟩
  rintro ⟨slot, hslot, hholds⟩
  exact absurd hholds (habsent slot hslot)

theorem MapRef.groupInsert_erased (hsentinels : R.emptyKey ≠ R.erasedKey)
    (hkey : R.keyEqual key R.erasedKey = false) {p : ℕ} (hpassed : R.Passed slots key p)
    (herased : slots (R.probe key p) = R.erasedSlot)
    (hnofind : ¬ ∃ rank < R.cgSize, ∃ i < R.bucketSize,
      R.Holds slots key (R.slotAt key (p / R.stride) rank i) ∧
      ∀ t < i, R.HoldsOther slots key (R.slotAt key (p / R.stride) rank t)) :
    ∀ fuel, R.groupInsert cas key payload fuel (p / R.stride) slots = none
  | 0 => rfl
  | fuel + 1 => by
    have hfree : ¬ R.Occupied slots (R.probe key p) := fun ho => ho.2 (by rw [herased, erasedSlot])
    rw [groupInsert_claim cas payload hpassed hfree hnofind fuel, herased]
    rcases casRun_erased cas payload hsentinels hkey fuel with hcas | hcas
    · -- the table is as it was, and the window is scanned again
      have hsame : Function.update slots (R.probe key p) R.erasedSlot = slots := by
        rw [← herased, Function.update_eq_self]
      rw [hcas]
      simp only [hsame]
      exact groupInsert_erased hsentinels hkey hpassed herased hnofind fuel
    · rw [hcas]

/-! ## 7. The condition -/

section Condition

omit [DecidableEq K] [DecidableEq V] in
theorem MapRef.Passed.window {p : ℕ} (h : R.Passed slots key p) :
    R.Passed slots key (p / R.stride * R.stride) :=
  fun q hq => h q (hq.trans_le (Nat.div_mul_le_self _ _))

omit [DecidableEq K] [DecidableEq V] in
theorem MapRef.WithErased.emptyValue (h : R.WithErased slots) {slot : ℕ} (hslot : slot < R.capacity)
    (hfree : ¬ R.Occupied slots slot) : (slots slot).2 = R.emptyValue := by
  rcases h.free slot hslot hfree with heq | heq <;> rw [heq] <;> rfl

variable (h : R.WithErased slots)
include h

/-- A single thread that finds an erased slot before its key takes it. -/
theorem MapRef.WithErased.scalar_of_blocked (hone : R.cgSize = 1)
    (hblocked : R.Blocked .scalar slots key) :
    ¬ R.InsertsOnce cas .scalar slots key payload := by
  rintro ⟨fuel, slots', inserted, hrun, hpresent, -, -⟩
  obtain ⟨q, hq, hholds, p', hp', herased'⟩ := hblocked
  obtain ⟨rfl, -⟩ := hpresent ⟨_, R.probe_lt _ _, hholds⟩
  have hnot : ¬ R.HoldsOther slots key (R.probe key p') := fun ho => ho.1.2 herased'
  -- the first slot without another key comes before the key, so it is free
  rcases R.first_stop slots key with hfull | ⟨p, hp, hpassed, hstop⟩
  · exact hnot (hfull p' (hp'.trans hq))
  have hle : p ≤ p' := by
    by_contra hlt
    exact hnot (hpassed p' (by omega))
  have hfree : ¬ R.Occupied slots (R.probe key p) := by
    refine hstop.resolve_left fun hholds' => ?_
    have hsame := h.placed.unique (R.probe_lt _ _) (R.probe_lt _ _) hholds'.1
      ⟨hholds.1, keyEqual_trans (keyEqual_symm hholds'.2) hholds.2⟩
    have := R.probe_injective key hp hq hsame
    omega
  have hvalue := h.emptyValue (R.probe_lt _ _) hfree
  rw [insertAlone_skip _ _ _ (R.window_lt hp) hpassed.window] at hrun
  split at hrun
  · exact absurd hrun (by simp)
  simp only at hrun
  cases hfuel : fuel - p / R.stride with
  | zero =>
    rw [hfuel] at hrun
    exact absurd hrun (by simp [scalarInsert])
  | succ fuel' =>
    rw [hfuel] at hrun
    rcases (scalarInsert_stop cas payload hone hpassed fuel').2 hfree hvalue with hres | ⟨hres, -⟩
    · rw [hres] at hrun
      simp at hrun
    · rw [hres] at hrun
      exact absurd hrun (by simp)

/-- A group that meets an erased slot first, and no key, does not return. -/
theorem MapRef.WithErased.group_of_blocked (hsentinels : R.emptyKey ≠ R.erasedKey)
    (hkey : R.keyEqual key R.erasedKey = false) (hblocked : R.Blocked .group slots key) :
    ¬ R.InsertsOnce cas .group slots key payload := by
  rintro ⟨fuel, slots', inserted, hrun, -, -, -⟩
  obtain ⟨p, hp, hpassed, herased, hnofind⟩ := hblocked
  have hfree : ¬ R.Occupied slots (R.probe key p) := fun ho => ho.2 herased
  have hslot : slots (R.probe key p) = R.erasedSlot := by
    refine (h.free _ (R.probe_lt _ _) hfree).resolve_left fun heq => ?_
    rw [heq] at herased
    exact hsentinels herased
  rw [insertAlone_skip _ _ _ (R.window_lt hp) hpassed.window] at hrun
  split at hrun
  · exact absurd hrun (by simp)
  · simp only at hrun
    rw [groupInsert_erased hsentinels hkey hpassed hslot hnofind] at hrun
    exact absurd hrun (by simp)

theorem MapRef.WithErased.insertsOnce_of_full
    (hfull : ∀ p < R.capacity, R.HoldsOther slots key (R.probe key p)) (form : Form) :
    R.InsertsOnce cas form slots key payload := by
  have hlast : R.numGroups - 1 < R.numGroups := Nat.sub_lt R.numGroups_pos Nat.one_pos
  have hpassed : R.Passed slots key ((R.numGroups - 1) * R.stride) := by
    intro q hq
    refine hfull q (hq.trans_le ?_)
    rw [R.capacity_eq]
    exact Nat.mul_le_mul_right _ hlast.le
  have hother : ∀ rank < R.cgSize, ∀ t < R.bucketSize,
      R.HoldsOther slots key (R.slotAt key (R.numGroups - 1) rank t) := by
    intro rank hrank t ht
    rw [R.slotAt_eq hrank ht]
    exact hfull _ (R.position_lt hlast hrank ht)
  have hrun : R.insertAlone cas key payload form slots R.numGroups = some (slots, false) := by
    rw [insertAlone_skip _ _ _ hlast hpassed, if_neg (by omega)]
    obtain ⟨m, hm⟩ : ∃ m, R.numGroups - (R.numGroups - 1) = m + 1 := ⟨0, by omega⟩
    have hend : R.numGroups - 1 + 1 = R.numGroups := by omega
    cases form with
    | scalar => simp only [hm, scalarInsert_pass hlast (hother 0 R.cgSize_pos), hend, if_true]
    | group => simp only [hm, groupInsert_pass hlast hother, hend, if_true]
  refine h.insertsOnce_of_unchanged hrun (Or.inr fun slot hslot => ?_)
  obtain ⟨p, hp, rfl⟩ := R.exists_position key hslot
  exact (hfull p hp).1

theorem MapRef.WithErased.scalar_of_not_blocked (hone : R.cgSize = 1) (hkey : key ≠ R.emptyKey)
    (hblocked : ¬ R.Blocked .scalar slots key) : R.InsertsOnce cas .scalar slots key payload := by
  rcases R.first_stop slots key with hfull | ⟨p, hp, hpassed, hstop⟩
  · exact h.insertsOnce_of_full hfull .scalar
  have hrun := insertAlone_skip cas payload .scalar (R.window_lt hp) hpassed.window
    (p / R.stride + 3)
  rw [if_neg (by omega), Nat.add_sub_cancel_left] at hrun
  rcases hstop with hholds | hfree
  · simp only [(scalarInsert_stop cas payload hone hpassed 2).1 hholds] at hrun
    exact h.insertsOnce_of_unchanged hrun (Or.inl ⟨_, R.probe_lt _ _, hholds⟩)
  have habsent : ∀ slot < R.capacity, ¬ R.Holds slots key slot := by
    rcases h.free _ (R.probe_lt _ _) hfree with heq | heq
    · exact h.placed.absent_of_empty hp hpassed (by rw [heq, emptySlot])
    · -- the slot is erased, and would come before the key
      intro slot hslot hholds
      obtain ⟨q, hq, rfl⟩ := R.exists_position key hslot
      refine hblocked ⟨q, hq, hholds, p, ?_, by rw [heq, erasedSlot]⟩
      rcases lt_trichotomy q p with hlt | rfl | hgt
      · exact absurd hholds (hpassed q hlt).not_holds
      · exact absurd hholds.1 hfree
      · exact hgt
  have hvalue := h.emptyValue (R.probe_lt _ _) hfree
  rcases (scalarInsert_stop cas payload hone hpassed 2).2 hfree hvalue with hres | ⟨-, hfuel⟩
  · simp only [hres] at hrun
    exact h.insertsOnce_of_claim hp hpassed hfree habsent hkey hrun
  · omega

theorem MapRef.WithErased.group_of_not_blocked (hkey : key ≠ R.emptyKey)
    (hblocked : ¬ R.Blocked .group slots key) : R.InsertsOnce cas .group slots key payload := by
  rcases R.first_stop slots key with hfull | ⟨p, hp, hpassed, hstop⟩
  · exact h.insertsOnce_of_full hfull .group
  have hrun := insertAlone_skip cas payload .group (R.window_lt hp) hpassed.window
    (p / R.stride + 3)
  rw [if_neg (by omega), Nat.add_sub_cancel_left] at hrun
  have hfound : (∃ rank < R.cgSize, ∃ i < R.bucketSize,
      R.Holds slots key (R.slotAt key (p / R.stride) rank i) ∧
      ∀ t < i, R.HoldsOther slots key (R.slotAt key (p / R.stride) rank t)) →
      R.InsertsOnce cas .group slots key payload := by
    rintro ⟨rank, hrank, i, hi, hholds, hbefore⟩
    simp only [groupInsert_found hrank hi hholds hbefore] at hrun
    refine h.insertsOnce_of_unchanged hrun (Or.inl ⟨_, ?_, hholds⟩)
    rw [R.slotAt_eq hrank hi]
    exact R.probe_lt _ _
  rcases hstop with hholds | hfree
  · -- the lane of the key finds it
    obtain ⟨rank, hrank, i, hi, hr⟩ := R.exists_lane (Nat.mod_lt p R.stride_pos)
    have hp' : p / R.stride * R.stride + rank * R.bucketSize + i = p := by
      rw [Nat.add_assoc, ← hr, Nat.div_add_mod']
    refine hfound ⟨rank, hrank, i, hi, ?_, fun t ht => ?_⟩
    · rwa [R.slotAt_eq hrank hi, hp']
    · rw [R.slotAt_eq hrank (by omega)]
      exact hpassed _ (by omega)
  rcases Classical.em (∃ rank < R.cgSize, ∃ i < R.bucketSize,
      R.Holds slots key (R.slotAt key (p / R.stride) rank i) ∧
      ∀ t < i, R.HoldsOther slots key (R.slotAt key (p / R.stride) rank t)) with hfind | hnofind
  · exact hfound hfind
  rcases h.free _ (R.probe_lt _ _) hfree with heq | heq
  · have hclaim := groupInsert_claim cas payload hpassed hfree hnofind 2
    rw [heq] at hclaim
    have hvalue : R.emptySlot.2 = R.emptyValue := rfl
    rcases casRun_self cas key payload hvalue 2 with hcas | ⟨-, hfuel⟩
    · rw [hcas] at hclaim
      simp only [hclaim] at hrun
      exact h.insertsOnce_of_claim hp hpassed hfree
        (h.placed.absent_of_empty hp hpassed (by rw [heq, emptySlot])) hkey hrun
    · omega
  · exact absurd ⟨p, hp, hpassed, by rw [heq, erasedSlot], hnofind⟩ hblocked

end Condition

/-- **When `insert` copes with erased slots.**  For every table whose slots are empty, erased or hold
keys that are well placed, a call of `insert` that runs alone does what is asked of it if and only if
no erased slot stands in its way. -/
theorem insert_erased_iff (R : MapRef K V) (hsentinels : R.emptyKey ≠ R.erasedKey) (cas : Cas)
    (form : Form) (hform : form = .scalar → R.cgSize = 1) (slots : Slots K V)
    (h : R.WithErased slots) (key : K) (payload : V) (hempty : key ≠ R.emptyKey)
    (herased : R.keyEqual key R.erasedKey = false) :
    R.InsertsOnce cas form slots key payload ↔ ¬ R.Blocked form slots key := by
  cases form with
  | scalar =>
    refine ⟨fun hok hblocked => h.scalar_of_blocked (hform rfl) hblocked hok, fun hok => ?_⟩
    exact h.scalar_of_not_blocked (hform rfl) hempty hok
  | group =>
    refine ⟨fun hok hblocked => h.group_of_blocked hsentinels herased hblocked hok, fun hok => ?_⟩
    exact h.group_of_not_blocked hempty hok

/-! ## 8. Two slots -/

section TwoSlots

/-- Two slots, searched from the first one on, of a container with an erased key. -/
def twoErasable : MapRef ℕ ℕ := { twoSlots with erasedKey := 9 }

/-- The first slot is erased; the second one is empty or holds a key. -/
def erasedThen (slot : ℕ × ℕ) : Slots ℕ ℕ
  | 0 => (9, 0)
  | _ => slot

theorem erasedThen_withErased {slot : ℕ × ℕ} (h : slot = (0, 0) ∨ slot = (1, 5)) :
    twoErasable.WithErased (erasedThen slot) := by
  have hfirst : ¬ twoErasable.Occupied (erasedThen slot) 0 := fun ho => ho.2 rfl
  have hlt : ∀ {a}, a < twoErasable.capacity → twoErasable.Occupied (erasedThen slot) a → a = 1 := by
    intro a ha ho
    match a, ha with
    | 0, _ => exact absurd ho hfirst
    | 1, _ => rfl
  refine ⟨⟨fun ha hb hoa hob => ?_, fun {key p q} hp hholds hq => ?_⟩, fun a ha hfree => ?_⟩
  · rw [hlt ha hoa, hlt hb hob.1]
  · -- only the second position can hold a key, and the first slot is not empty
    obtain rfl : q = 0 := by
      have : p < 2 := hp
      omega
    exact (by decide : (9 : ℕ) ≠ 0)
  · match a, ha with
    | 0, _ => exact Or.inr rfl
    | 1, _ =>
      rcases h with rfl | rfl
      · exact Or.inl rfl
      · exact absurd ⟨by decide, by decide⟩ hfree

/-- A single thread uses the erased slot for a key that is not there. -/
theorem insert_erased_iff_reuse :
    twoErasable.InsertsOnce .packed .scalar (erasedThen (0, 0)) 1 6 := by
  refine (insert_erased_iff twoErasable (by decide) .packed .scalar (fun _ => rfl) _
    (erasedThen_withErased (Or.inl rfl)) 1 6 (by decide) (by decide)).mpr ?_
  rintro ⟨q, hq, hholds, -⟩
  have : q < 2 := hq
  match q, this with
  | 0, _ => exact absurd hholds (by decide)
  | 1, _ => exact absurd hholds (by decide)

/-- **A key is there twice, and a group does not return.**  In a table with an erased slot before the
key a single thread inserts the key again; in a table with an erased slot and an empty one a group goes
on forever. -/
theorem insert_erased_fails :
    (twoErasable.insertAlone .packed 1 6 .scalar (erasedThen (1, 5)) 5).map
        (fun r => (r.1 0, r.1 1, r.2)) = some ((1, 6), (1, 5), true) ∧
      ¬ twoErasable.InsertsOnce .packed .scalar (erasedThen (1, 5)) 1 6 ∧
      (∀ fuel, twoErasable.insertAlone .packed 1 6 .group (erasedThen (0, 0)) fuel = none) ∧
      ¬ twoErasable.InsertsOnce .packed .group (erasedThen (0, 0)) 1 6 := by
  have hnofind : ¬ ∃ rank < twoErasable.cgSize, ∃ i < twoErasable.bucketSize,
      twoErasable.Holds (erasedThen (0, 0)) 1
        (twoErasable.slotAt 1 (0 / twoErasable.stride) rank i) ∧
      ∀ t < i, twoErasable.HoldsOther (erasedThen (0, 0)) 1
        (twoErasable.slotAt 1 (0 / twoErasable.stride) rank t) := by
    decide
  have hpassed : twoErasable.Passed (erasedThen (0, 0)) 1 0 := fun q hq => absurd hq (by omega)
  refine ⟨by decide, ?_, fun fuel => ?_, ?_⟩
  · exact (erasedThen_withErased (Or.inr rfl)).scalar_of_blocked rfl
      ⟨1, by decide, by decide, 0, by decide, by decide⟩
  · exact MapRef.groupInsert_erased (by decide) (by decide) hpassed rfl hnofind fuel
  · exact (erasedThen_withErased (Or.inl rfl)).group_of_blocked (by decide) (by decide)
      ⟨0, by decide, hpassed, by decide, hnofind⟩

end TwoSlots

end Claims

end Cccl.Cuco
