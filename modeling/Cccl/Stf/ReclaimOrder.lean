/-
# Reclaiming several instances of one logical data

Which sequences of `do_reclaim` calls on one logical data go through?  Each call changes the MSI
states of the other instances, and a later call may find its instance in a state it cannot handle.

With a reference instance the only such state is a pending reduction, and a pending reduction is
gone as soon as one shared instance has been reclaimed: the update that follows sets every
instance that is not invalid to shared or modified.  Without a reference instance a modified one
cannot be reclaimed either, since there is nowhere to write it back to; the first instance that is
not invalid then has to be shared, and the last one of several ends up modified and must not be
reclaimed at all.

`reclaimAll_isSome_iff` says this and that it is exact.
-/
import Cccl.Stf.Coherency

namespace Cccl.Stf

open MsirStateId

variable {E : Type*}

/-! ## 1. The calls, one after the other -/

/-- `do_reclaim` on each of the given instances; `copyDone i` are the events of the write-back
that the call on instance `i` may issue. -/
def LogicalData.reclaimAll [LinearOrder E] (B : EventBackend E) (copyDone : ℕ → List E) :
    List ℕ → LogicalData E → Option (LogicalData E)
  | [], d => some d
  | i :: rest, d =>
    match d.doReclaim B (copyDone i) i with
    | none => none
    | some u => u.data.reclaimAll B copyDone rest

/-- What holds of the tables the runtime keeps: memory is only held by slots in use, the reference
instance is slot 0 and not reclaimable, and there is nothing past the end of the table. -/
structure LogicalData.WellFormed (d : LogicalData E) : Prop where
  range : ∀ i, d.msir i ≠ .invalid → i < d.count
  used_of_allocated : ∀ i, (d.inst i).allocated → (d.inst i).used
  reference : ∀ ref, d.referenceInstanceId = some ref →
    ref = 0 ∧ (d.inst 0).reclaimable = false

section Call

variable [LinearOrder E] {B : EventBackend E} {copyDone : List E} {id : ℕ} {d : LogicalData E}
  {u : Update E}

theorem doReclaim_eq_some (h : d.doReclaim B copyDone id = some u) :
    ∃ w, d.reclaimUpdateState B copyDone id (LogicalData.getPendingDonePrereqs d.state) = some w ∧
      (d.inst id).used ∧
      u = { w with data := w.data.modify id fun n => { n with allocated := false, used := false } } := by
  unfold LogicalData.doReclaim at h
  split at h
  · exact absurd h (by simp)
  · rename_i w hw
    split at h
    · rename_i hused
      refine ⟨w, hw, ?_, (Option.some.inj h).symm⟩
      rwa [(reclaimUpdateState_sameTable hw).used] at hused
    · exact absurd h (by simp)

omit [LinearOrder E] in
theorem release_msir (w : LogicalData E) :
    LogicalData.msir (w.modify id fun n => { n with allocated := false, used := false })
      = w.msir := by
  funext i
  by_cases hi : i = id <;> simp [LogicalData.msir, hi]

theorem doReclaim_effect (hrange : ∀ i, d.msir i ≠ .invalid → i < d.count)
    (h : d.doReclaim B copyDone id = some u) :
    ReclaimEffect d.msir id u.data.msir (u.copies.map fun c => (c.dst, c.src)) := by
  obtain ⟨w, hw, -, rfl⟩ := doReclaim_eq_some h
  rw [release_msir]
  exact reclaimUpdateState_effect hrange hw

/-- What a call leaves of the table. -/
structure Reclaimed (d : LogicalData E) (id : ℕ) (d' : LogicalData E) : Prop where
  count : d'.count = d.count
  reference : d'.referenceInstanceId = d.referenceInstanceId
  used : ∀ i, (d'.inst i).used = (if i = id then false else (d.inst i).used)
  allocated : ∀ i, (d'.inst i).allocated = (if i = id then false else (d.inst i).allocated)
  reclaimable : ∀ i, (d'.inst i).reclaimable = (d.inst i).reclaimable
  allocatedSize : ∀ i, (d'.inst i).allocatedSize = (d.inst i).allocatedSize

theorem doReclaim_reclaimed (h : d.doReclaim B copyDone id = some u) :
    Reclaimed d id u.data := by
  obtain ⟨w, hw, -, rfl⟩ := doReclaim_eq_some h
  have hsame := reclaimUpdateState_sameTable hw
  refine ⟨hsame.count, hsame.reference, fun i => ?_, fun i => ?_, fun i => ?_, fun i => ?_⟩
  · by_cases hi : i = id <;> simp [hi, hsame.used]
  · by_cases hi : i = id <;> simp [hi, hsame.allocated]
  · by_cases hi : i = id <;> simp [hi, hsame.reclaimable]
  · by_cases hi : i = id <;> simp [hi, hsame.allocatedSize]

theorem LogicalData.WellFormed.doReclaim (hwf : d.WellFormed) (hlt : id < d.count)
    (h : d.doReclaim B copyDone id = some u) : u.data.WellFormed := by
  have hleft := doReclaim_reclaimed h
  refine ⟨fun i hi => ?_, fun i hi => ?_, fun ref href => ?_⟩
  · rw [hleft.count]
    rcases (doReclaim_effect hwf.range h).valid.2 i hi with hold | ⟨rfl, -⟩
    · exact hwf.range i hold
    · exact lt_of_le_of_lt (Nat.zero_le id) hlt
  · rw [hleft.allocated] at hi
    rw [hleft.used]
    split at hi
    · exact absurd hi (by simp)
    · rename_i hne
      rw [if_neg hne]
      exact hwf.used_of_allocated i hi
  · rw [hleft.reference] at href
    rw [hleft.reclaimable]
    exact hwf.reference ref href

/-- **When a single call goes through**: the slot is in use, no reduction is pending in it, and a
modified instance has somewhere to be written back to. -/
theorem exists_doReclaim_iff (B : EventBackend E) (copyDone : List E) (id : ℕ)
    (d : LogicalData E) :
    (∃ u, d.doReclaim B copyDone id = some u) ↔
      (d.inst id).used ∧ d.msir id ≠ .reduction ∧
        (d.msir id = .modified → d.referenceInstanceId ≠ none) := by
  have hstate : (∃ w, d.reclaimUpdateState B copyDone id
        (LogicalData.getPendingDonePrereqs d.state) = some w) ↔
      d.msir id ≠ .reduction ∧ (d.msir id = .modified → d.referenceInstanceId ≠ none) := by
    unfold LogicalData.reclaimUpdateState LogicalData.msir
    cases hm : (d.inst id).msir with
    | invalid | shared | reduction => simp
    | modified =>
      cases href : d.referenceInstanceId <;> simp [LogicalData.reclaimModified, href]
  constructor
  · rintro ⟨u, hu⟩
    obtain ⟨w, hw, hused, -⟩ := doReclaim_eq_some hu
    exact ⟨hused, hstate.mp ⟨w, hw⟩⟩
  · rintro ⟨hused, hm⟩
    obtain ⟨w, hw⟩ := hstate.mpr hm
    have hused' : (w.data.inst id).used := by
      rw [(reclaimUpdateState_sameTable hw).used]
      exact hused
    refine ⟨{ w with data := w.data.modify id fun n =>
      { n with allocated := false, used := false } }, ?_⟩
    simp [LogicalData.doReclaim, hw, hused']

/-- Unless it is shared, an instance is reclaimed without any change to the states of others but
slot 0. -/
theorem ReclaimEffect.eq_of_not_shared {m m' : ℕ → MsirStateId} {copies : List (ℕ × ℕ)}
    (h : ReclaimEffect m id m' copies) (hm : m id ≠ .shared) {i : ℕ} (hi : i ≠ id) (h0 : i ≠ 0) :
    m' i = m i := by
  cases h with
  | invalid => rfl
  | modified => simp [hi, h0]
  | last hsh => exact absurd hsh hm
  | others hsh => exact absurd hsh hm

theorem ReclaimEffect.eq_of_invalid {m m' : ℕ → MsirStateId} {copies : List (ℕ × ℕ)}
    (h : ReclaimEffect m id m' copies) (hm : m id = .invalid) : m' = m := by
  cases h with
  | invalid => rfl
  | modified hbad => simp [hm] at hbad
  | last hbad => simp [hm] at hbad
  | others hbad => simp [hm] at hbad

/-- After a shared instance has been reclaimed no reduction is pending. -/
theorem ReclaimEffect.no_reduction_of_shared {m m' : ℕ → MsirStateId} {copies : List (ℕ × ℕ)}
    (h : ReclaimEffect m id m' copies) (hm : m id = .shared) (i : ℕ) : m' i ≠ .reduction := by
  cases h with
  | invalid hbad => simp [hm] at hbad
  | modified hbad => simp [hm] at hbad
  | last =>
    unfold onlyModified
    split <;> simp
  | others =>
    dsimp only
    split <;> simp

theorem ReclaimEffect.no_reduction {m m' : ℕ → MsirStateId} {copies : List (ℕ × ℕ)}
    (h : ReclaimEffect m id m' copies) (hno : ∀ i, m i ≠ .reduction) (i : ℕ) :
    m' i ≠ .reduction := by
  by_cases hm : m id = .shared
  · exact h.no_reduction_of_shared hm i
  · cases h with
    | invalid => exact hno i
    | modified =>
      dsimp only
      split
      · simp
      · split
        · simp
        · exact hno i
    | last hsh => exact absurd hsh hm
    | others hsh => exact absurd hsh hm

end Call

/-! ## 2. With a reference instance -/

/-- Slots that a sequence of calls may name: in the table, in use and not the reference. -/
structure Callable (d : LogicalData E) (ids : List ℕ) : Prop where
  lt : ∀ i ∈ ids, i < d.count
  used : ∀ i ∈ ids, (d.inst i).used
  ne_reference : d.referenceInstanceId ≠ none → ∀ i ∈ ids, i ≠ 0

theorem Callable.tail {d d' : LogicalData E} {i : ℕ} {ids : List ℕ} (h : Callable d (i :: ids))
    (hleft : Reclaimed d i d') (hnotin : i ∉ ids) : Callable d' ids := by
  refine ⟨fun j hj => ?_, fun j hj => ?_, fun href j hj => ?_⟩
  · rw [hleft.count]
    exact h.lt j (by simp [hj])
  · have hne : j ≠ i := by
      rintro rfl
      exact hnotin hj
    rw [hleft.used, if_neg hne]
    exact h.used j (by simp [hj])
  · rw [hleft.reference] at href
    exact h.ne_reference href j (by simp [hj])

/-- Every pending reduction that is reclaimed comes after a shared instance. -/
def ReductionsFollow (m : ℕ → MsirStateId) (ids : List ℕ) : Prop :=
  ∀ before i after, ids = before ++ i :: after → m i = .reduction → ∃ j ∈ before, m j = .shared

theorem reductionsFollow_nil (m : ℕ → MsirStateId) : ReductionsFollow m [] := by
  intro before i after h
  simp at h

theorem reductionsFollow_cons {m : ℕ → MsirStateId} {i : ℕ} {ids : List ℕ} :
    ReductionsFollow m (i :: ids) ↔
      m i = .shared ∨ (m i ≠ .reduction ∧ ReductionsFollow m ids) := by
  constructor
  · intro h
    by_cases hsh : m i = .shared
    · exact Or.inl hsh
    · refine Or.inr ⟨fun hred => ?_, fun before j after heq hj => ?_⟩
      · obtain ⟨k, hk, -⟩ := h [] i ids rfl hred
        simp at hk
      · obtain ⟨k, hk, hks⟩ := h (i :: before) j after (by simp [heq]) hj
        rcases List.mem_cons.mp hk with rfl | hk
        · exact absurd hks hsh
        · exact ⟨k, hk, hks⟩
  · rintro (hsh | ⟨hne, h⟩) before j after heq hj
    · cases before with
      | nil =>
        obtain ⟨rfl, -⟩ : i = j ∧ ids = after := by simpa using heq
        simp [hsh] at hj
      | cons b before =>
        obtain ⟨rfl, -⟩ : i = b ∧ _ := by simpa using heq
        exact ⟨i, by simp, hsh⟩
    · cases before with
      | nil =>
        obtain ⟨rfl, -⟩ : i = j ∧ ids = after := by simpa using heq
        exact absurd hj hne
      | cons b before =>
        obtain ⟨rfl, hrest⟩ : i = b ∧ ids = before ++ j :: after := by simpa using heq
        obtain ⟨k, hk, hks⟩ := h before j after hrest hj
        exact ⟨k, by simp [hk], hks⟩

theorem reductionsFollow_congr {m m' : ℕ → MsirStateId} :
    ∀ {ids : List ℕ}, (∀ i ∈ ids, m' i = m i) → (ReductionsFollow m' ids ↔ ReductionsFollow m ids)
  | [], _ => by simp [reductionsFollow_nil]
  | i :: ids, h => by
    rw [reductionsFollow_cons, reductionsFollow_cons, h i (by simp),
      reductionsFollow_congr fun j hj => h j (by simp [hj])]

section WithReference

variable [LinearOrder E] {B : EventBackend E} {copyDone : ℕ → List E}

/-- Where no reduction is pending every sequence of calls goes through. -/
theorem reclaimAll_of_no_reduction :
    ∀ {ids : List ℕ} {d : LogicalData E}, d.WellFormed → d.referenceInstanceId ≠ none →
      Callable d ids → ids.Nodup → (∀ i, d.msir i ≠ .reduction) →
      (d.reclaimAll B copyDone ids).isSome
  | [], _, _, _, _, _, _ => rfl
  | i :: ids, d, hwf, href, hcall, hnd, hno => by
    obtain ⟨hi, hnd⟩ := List.nodup_cons.mp hnd
    obtain ⟨u, hu⟩ := (exists_doReclaim_iff B (copyDone i) i d).mpr
      ⟨hcall.used i (by simp), hno i, fun _ => href⟩
    have hleft := doReclaim_reclaimed hu
    have hrest := reclaimAll_of_no_reduction (hwf.doReclaim (hcall.lt i (by simp)) hu)
      (by rw [hleft.reference]; exact href) (hcall.tail hleft hi) hnd
      ((doReclaim_effect hwf.range hu).no_reduction hno)
    simpa [LogicalData.reclaimAll, hu] using hrest

/-- **With a reference instance**, a sequence of calls on distinct instances goes through exactly
when every pending reduction comes after a shared instance. -/
theorem reclaimAll_isSome_iff_of_reference :
    ∀ {ids : List ℕ} {d : LogicalData E}, d.WellFormed → d.referenceInstanceId ≠ none →
      Callable d ids → ids.Nodup →
      ((d.reclaimAll B copyDone ids).isSome ↔ ReductionsFollow d.msir ids)
  | [], d, _, _, _, _ => by simp [LogicalData.reclaimAll, reductionsFollow_nil]
  | i :: ids, d, hwf, href, hcall, hnd => by
    obtain ⟨hi, hnd⟩ := List.nodup_cons.mp hnd
    have hcan := exists_doReclaim_iff B (copyDone i) i d
    by_cases hred : d.msir i = .reduction
    · have hnone : d.doReclaim B (copyDone i) i = none := by
        cases hu : d.doReclaim B (copyDone i) i with
        | none => rfl
        | some u => exact absurd hred (hcan.mp ⟨u, hu⟩).2.1
      simp [LogicalData.reclaimAll, hnone, reductionsFollow_cons, hred]
    · obtain ⟨u, hu⟩ := hcan.mpr ⟨hcall.used i (by simp), hred, fun _ => href⟩
      have hleft := doReclaim_reclaimed hu
      have heff := doReclaim_effect hwf.range hu
      have hwf' := hwf.doReclaim (hcall.lt i (by simp)) hu
      have href' : u.data.referenceInstanceId ≠ none := by rw [hleft.reference]; exact href
      have hcall' := hcall.tail hleft hi
      simp only [LogicalData.reclaimAll, hu, reductionsFollow_cons]
      by_cases hsh : d.msir i = .shared
      · simp only [hsh, true_or, iff_true]
        exact reclaimAll_of_no_reduction hwf' href' hcall' hnd (heff.no_reduction_of_shared hsh)
      · rw [reclaimAll_isSome_iff_of_reference hwf' href' hcall' hnd]
        simp only [hsh, false_or, ne_eq, hred, not_false_eq_true, true_and]
        refine reductionsFollow_congr fun j hj => heff.eq_of_not_shared hsh ?_ ?_
        · rintro rfl
          exact hi hj
        · exact hcall.ne_reference href j (by simp [hj])

end WithReference

/-! ## 3. Without a reference instance -/

/-- The first instance named that is not invalid is shared. -/
def SharedFirst (m : ℕ → MsirStateId) (ids : List ℕ) : Prop :=
  ∀ before i after, ids = before ++ i :: after → (∀ j ∈ before, m j = .invalid) →
    m i ≠ .invalid → m i = .shared

theorem sharedFirst_cons {m : ℕ → MsirStateId} {i : ℕ} {ids : List ℕ} :
    SharedFirst m (i :: ids) ↔ m i = .shared ∨ (m i = .invalid ∧ SharedFirst m ids) := by
  constructor
  · intro h
    by_cases hi : m i = .invalid
    · refine Or.inr ⟨hi, fun before j after heq hbefore => ?_⟩
      refine h (i :: before) j after (by simp [heq]) fun k hk => ?_
      rcases List.mem_cons.mp hk with rfl | hk
      · exact hi
      · exact hbefore k hk
    · exact Or.inl (h [] i ids rfl (by simp) hi)
  · rintro (hsh | ⟨hi, h⟩) before j after heq hbefore hj
    · cases before with
      | nil =>
        obtain ⟨rfl, -⟩ : i = j ∧ ids = after := by simpa using heq
        exact hsh
      | cons b before =>
        obtain ⟨rfl, -⟩ : i = b ∧ _ := by simpa using heq
        simp [hsh] at hbefore
    · cases before with
      | nil =>
        obtain ⟨rfl, -⟩ : i = j ∧ ids = after := by simpa using heq
        exact absurd hi hj
      | cons b before =>
        obtain ⟨rfl, hrest⟩ : i = b ∧ ids = before ++ j :: after := by simpa using heq
        exact h before j after hrest (fun k hk => hbefore k (by simp [hk])) hj

/-- All the instances that are not invalid, and there are some, are named. -/
def Exhausts (m : ℕ → MsirStateId) (ids : List ℕ) : Prop :=
  (∃ i, m i ≠ .invalid) ∧ ∀ i, m i ≠ .invalid → i ∈ ids

/-- The states once a shared instance has been reclaimed: the others are shared, each with a
companion, or there is a single one and it is modified. -/
def Settled (m : ℕ → MsirStateId) : Prop :=
  (∀ i, m i ≠ .invalid → m i = .shared ∧ ∃ j, j ≠ i ∧ m j ≠ .invalid) ∨ ∃ j, m = onlyModified j

section WithoutReference

variable {m m' : ℕ → MsirStateId} {i : ℕ} {ids : List ℕ} {copies : List (ℕ × ℕ)}

/-- Reclaiming a shared instance settles the states, and takes just that instance away. -/
theorem ReclaimEffect.settled (h : ReclaimEffect m i m' copies) (hm : m i = .shared) :
    Settled m' ∧ ∀ j, m' j ≠ .invalid ↔ j ≠ i ∧ m j ≠ .invalid := by
  cases h with
  | invalid hbad => simp [hm] at hbad
  | modified hbad => simp [hm] at hbad
  | @last k _ hk hv huniq =>
    refine ⟨Or.inr ⟨k, rfl⟩, fun j => ?_⟩
    by_cases hjk : j = k
    · simp [onlyModified, hjk, hk, hv]
    · simp only [onlyModified, if_neg hjk, ne_eq, not_true_eq_false, false_iff, not_and]
      exact fun hj hjv => hjk (huniq j hj hjv)
  | others _ hmore =>
    refine ⟨Or.inl fun j hj => ?_, fun j => by simp⟩
    have hv : j ≠ i ∧ m j ≠ .invalid := by
      by_contra hne
      simp [hne] at hj
    obtain ⟨k, hk, hkj, hkv⟩ := hmore j hv.1 hv.2
    exact ⟨by simp [hv], k, hkj, by simp [hk, hkv]⟩

theorem exhausts_cons_of_invalid (hi : m i = .invalid) :
    Exhausts m (i :: ids) ↔ Exhausts m ids := by
  refine and_congr_right fun _ => forall_congr' fun j => imp_congr_right fun hj => ?_
  have hne : j ≠ i := by
    rintro rfl
    exact hj hi
  simp [hne]

/-- Reclaiming an instance that has a companion leaves it to the rest to exhaust the table. -/
theorem exhausts_cons_of_companion (hm' : ∀ j, m' j ≠ .invalid ↔ j ≠ i ∧ m j ≠ .invalid)
    (hcomp : ∃ j, j ≠ i ∧ m j ≠ .invalid) : Exhausts m (i :: ids) ↔ Exhausts m' ids := by
  constructor
  · rintro ⟨-, hall⟩
    obtain ⟨j, hj⟩ := hcomp
    refine ⟨⟨j, (hm' j).mpr hj⟩, fun k hk => ?_⟩
    obtain ⟨hki, hkv⟩ := (hm' k).mp hk
    exact (List.mem_cons.mp (hall k hkv)).resolve_left hki
  · rintro ⟨-, hall⟩
    obtain ⟨j, hj⟩ := hcomp
    refine ⟨⟨j, hj.2⟩, fun k hk => ?_⟩
    by_cases hki : k = i
    · simp [hki]
    · exact List.mem_cons_of_mem i (hall k ((hm' k).mpr ⟨hki, hk⟩))

variable [LinearOrder E] {B : EventBackend E} {copyDone : ℕ → List E}

/-- From settled states a sequence of calls goes through exactly when it leaves an instance. -/
theorem reclaimAll_isSome_iff_of_settled :
    ∀ {ids : List ℕ} {d : LogicalData E}, d.WellFormed → d.referenceInstanceId = none →
      Callable d ids → ids.Nodup → Settled d.msir →
      ((d.reclaimAll B copyDone ids).isSome ↔ ¬ Exhausts d.msir ids)
  | [], d, _, _, _, _, _ => by
    simp only [LogicalData.reclaimAll, Option.isSome_some, true_iff]
    rintro ⟨⟨i, hi⟩, hall⟩
    exact absurd (hall i hi) (by simp)
  | i :: ids, d, hwf, href, hcall, hnd, hset => by
    obtain ⟨hi, hnd⟩ := List.nodup_cons.mp hnd
    have hcan := exists_doReclaim_iff B (copyDone i) i d
    by_cases hmod : d.msir i = .modified
    · -- the single instance left: it cannot be written back
      have hnone : d.doReclaim B (copyDone i) i = none := by
        cases hu : d.doReclaim B (copyDone i) i with
        | none => rfl
        | some u => exact absurd href ((hcan.mp ⟨u, hu⟩).2.2 hmod)
      simp only [LogicalData.reclaimAll, hnone, Option.isSome_none, Bool.false_eq_true, false_iff,
        not_not]
      refine ⟨⟨i, by simp [hmod]⟩, fun j hj => ?_⟩
      rcases hset with hshared | ⟨k, hk⟩
      · have hsh := (hshared i (by simp [hmod])).1
        simp [hmod] at hsh
      · have honly : ∀ j, d.msir j ≠ .invalid → j = k := by
          intro j hj
          by_contra hne
          simp [hk, onlyModified, hne] at hj
        simp [honly j hj, honly i (by simp [hmod])]
    · have hnored : d.msir i ≠ .reduction := by
        intro hred
        rcases hset with hshared | ⟨k, hk⟩
        · have hsh := (hshared i (by simp [hred])).1
          simp [hred] at hsh
        · rw [hk] at hred
          unfold onlyModified at hred
          split at hred <;> simp at hred
      obtain ⟨u, hu⟩ := hcan.mpr ⟨hcall.used i (by simp), hnored, fun h => absurd h hmod⟩
      have hleft := doReclaim_reclaimed hu
      have heff := doReclaim_effect hwf.range hu
      have hwf' := hwf.doReclaim (hcall.lt i (by simp)) hu
      have href' : u.data.referenceInstanceId = none := by rw [hleft.reference]; exact href
      have hcall' := hcall.tail hleft hi
      simp only [LogicalData.reclaimAll, hu]
      cases hm : d.msir i with
      | modified => exact absurd hm hmod
      | reduction => exact absurd hm hnored
      | invalid =>
        have hsame : u.data.msir = d.msir := heff.eq_of_invalid hm
        rw [reclaimAll_isSome_iff_of_settled hwf' href' hcall' hnd (hsame ▸ hset), hsame,
          exhausts_cons_of_invalid hm]
      | shared =>
        obtain ⟨hset', hvalid⟩ := heff.settled hm
        have hcomp : ∃ j, j ≠ i ∧ d.msir j ≠ .invalid := by
          rcases hset with hshared | ⟨k, hk⟩
          · exact (hshared i (by simp [hm])).2
          · rw [hk] at hm
            unfold onlyModified at hm
            split at hm <;> simp at hm
        rw [reclaimAll_isSome_iff_of_settled hwf' href' hcall' hnd hset',
          exhausts_cons_of_companion hvalid hcomp]

/-- **Without a reference instance**, a sequence of calls on distinct instances goes through
exactly when the first one that is not invalid is shared, and of several that are not invalid one
is left. -/
theorem reclaimAll_isSome_iff_of_no_reference :
    ∀ {ids : List ℕ} {d : LogicalData E}, d.WellFormed → d.referenceInstanceId = none →
      Callable d ids → ids.Nodup →
      ((d.reclaimAll B copyDone ids).isSome ↔ SharedFirst d.msir ids ∧
        ¬ ((∃ i j, i ≠ j ∧ d.msir i ≠ .invalid ∧ d.msir j ≠ .invalid) ∧ Exhausts d.msir ids))
  | [], d, _, _, _, _ => by
    simp only [LogicalData.reclaimAll, Option.isSome_some, true_iff]
    refine ⟨fun before i after h => by simp at h, ?_⟩
    rintro ⟨-, ⟨i, hi⟩, hall⟩
    exact absurd (hall i hi) (by simp)
  | i :: ids, d, hwf, href, hcall, hnd => by
    obtain ⟨hi, hnd⟩ := List.nodup_cons.mp hnd
    have hcan := exists_doReclaim_iff B (copyDone i) i d
    by_cases hgood : d.msir i = .shared ∨ d.msir i = .invalid
    · obtain ⟨u, hu⟩ := hcan.mpr ⟨hcall.used i (by simp), by rcases hgood with h | h <;> simp [h],
        by rcases hgood with h | h <;> simp [h]⟩
      have hleft := doReclaim_reclaimed hu
      have heff := doReclaim_effect hwf.range hu
      have hwf' := hwf.doReclaim (hcall.lt i (by simp)) hu
      have href' : u.data.referenceInstanceId = none := by rw [hleft.reference]; exact href
      have hcall' := hcall.tail hleft hi
      simp only [LogicalData.reclaimAll, hu, sharedFirst_cons]
      rcases hgood with hm | hm
      · obtain ⟨hset', hvalid⟩ := heff.settled hm
        rw [reclaimAll_isSome_iff_of_settled hwf' href' hcall' hnd hset']
        simp only [hm, true_or, true_and]
        refine not_congr ⟨fun hex => ?_, fun ⟨⟨j, k, hjk, hj, hk⟩, hex⟩ => ?_⟩
        · obtain ⟨j, hj⟩ := hex.1
          have hji := (hvalid j).mp hj
          exact ⟨⟨j, i, hji.1, hji.2, by simp [hm]⟩,
            (exhausts_cons_of_companion hvalid ⟨j, hji⟩).mpr hex⟩
        · refine (exhausts_cons_of_companion hvalid ?_).mp hex
          by_cases hji : j = i
          · exact ⟨k, fun hki => hjk (hji.trans hki.symm), hk⟩
          · exact ⟨j, hji, hj⟩
      · have hsame : u.data.msir = d.msir := heff.eq_of_invalid hm
        rw [reclaimAll_isSome_iff_of_no_reference hwf' href' hcall' hnd, hsame,
          exhausts_cons_of_invalid hm]
        simp [hm]
    · -- a modified instance has nowhere to go, a pending reduction no reclaim
      have hnone : d.doReclaim B (copyDone i) i = none := by
        cases hu : d.doReclaim B (copyDone i) i with
        | none => rfl
        | some u =>
          obtain ⟨-, hred, hmod⟩ := hcan.mp ⟨u, hu⟩
          cases hm : d.msir i with
          | modified => exact absurd href (hmod hm)
          | reduction => exact absurd hm hred
          | shared => exact absurd (Or.inl hm) hgood
          | invalid => exact absurd (Or.inr hm) hgood
      have hfirst : ¬ SharedFirst d.msir (i :: ids) := by
        rw [sharedFirst_cons]
        rintro (h | ⟨h, -⟩)
        · exact hgood (Or.inl h)
        · exact hgood (Or.inr h)
      simp [LogicalData.reclaimAll, hnone, hfirst]

end WithoutReference

/-! ## 4. Both cases -/

/-- **The sequences of calls a logical data can take**, on the states it starts from: no instance
twice; with a reference instance, a pending reduction only after a shared instance; without, first
a shared instance and, of several that are not invalid, not all. -/
def CanReclaim (d : LogicalData E) (ids : List ℕ) : Prop :=
  ids.Nodup ∧
    (d.referenceInstanceId ≠ none → ReductionsFollow d.msir ids) ∧
    (d.referenceInstanceId = none → SharedFirst d.msir ids ∧
      ¬ ((∃ i j, i ≠ j ∧ d.msir i ≠ .invalid ∧ d.msir j ≠ .invalid) ∧ Exhausts d.msir ids))

section Both

variable [LinearOrder E] {B : EventBackend E} {copyDone : ℕ → List E}

/-- Calls only go through on slots in use, and no call puts a slot in use again. -/
theorem used_of_reclaimAll :
    ∀ {ids : List ℕ} {d d' : LogicalData E}, d.reclaimAll B copyDone ids = some d' →
      ∀ i ∈ ids, (d.inst i).used
  | [], _, _, _, i, hi => by simp at hi
  | j :: ids, d, d', h, i, hi => by
    simp only [LogicalData.reclaimAll] at h
    split at h
    · exact absurd h (by simp)
    · rename_i u hu
      obtain ⟨-, -, hused, -⟩ := doReclaim_eq_some hu
      rcases List.mem_cons.mp hi with rfl | hi
      · exact hused
      · have hlater := used_of_reclaimAll h i hi
        rw [(doReclaim_reclaimed hu).used] at hlater
        split at hlater
        · exact absurd hlater (by simp)
        · exact hlater

theorem nodup_of_reclaimAll :
    ∀ {ids : List ℕ} {d d' : LogicalData E}, d.reclaimAll B copyDone ids = some d' → ids.Nodup
  | [], _, _, _ => List.nodup_nil
  | j :: ids, d, d', h => by
    simp only [LogicalData.reclaimAll] at h
    split at h
    · exact absurd h (by simp)
    · rename_i u hu
      refine List.nodup_cons.mpr ⟨fun hj => ?_, nodup_of_reclaimAll h⟩
      have hused := used_of_reclaimAll h j hj
      simp [(doReclaim_reclaimed hu).used] at hused

/-- **A sequence of calls goes through exactly when the logical data can take it.** -/
theorem reclaimAll_isSome_iff {ids : List ℕ} {d : LogicalData E} (hwf : d.WellFormed)
    (hcall : Callable d ids) :
    (d.reclaimAll B copyDone ids).isSome ↔ CanReclaim d ids := by
  by_cases hnd : ids.Nodup
  · by_cases href : d.referenceInstanceId = none
    · rw [reclaimAll_isSome_iff_of_no_reference hwf href hcall hnd]
      simp [CanReclaim, hnd, href]
    · rw [reclaimAll_isSome_iff_of_reference hwf href hcall hnd]
      simp [CanReclaim, hnd, href]
  · refine ⟨fun h => ?_, fun h => absurd h.1 hnd⟩
    obtain ⟨d', hd'⟩ := Option.isSome_iff_exists.mp h
    exact absurd (nodup_of_reclaimAll hd') hnd

end Both

end Cccl.Stf
