/-
# Slots claimed one by one

However many threads insert into a table at a time, a slot that holds a key goes on holding it
(`Keeps`).  So what a thread has learnt of a slot that holds another key than its own stays true, and
when it comes to a free slot all slots before it in the search for its key are known to hold other
keys (`passed_of_available`).  A claim of that slot keeps the keys well placed
(`WellPlaced.claim`).
-/
import Cccl.Cuco.Table

namespace Cccl.Cuco

variable {K V : Type*}

namespace MapRef

variable {R : MapRef K V} {slots : Slots K V} {key : K}

/-! ## 1. Claiming a slot -/

section Claim

variable {slots' : Slots K V} {slot p : ℕ}

/-- No key is taken out of its slot. -/
def Keeps (R : MapRef K V) (slots slots' : Slots K V) : Prop :=
  ∀ slot, R.Occupied slots slot → (slots' slot).1 = (slots slot).1

theorem Keeps.refl (slots : Slots K V) : R.Keeps slots slots :=
  fun _ _ => rfl

theorem Keeps.occupied (h : R.Keeps slots slots') (hslot : R.Occupied slots slot) :
    R.Occupied slots' slot := by
  unfold Occupied
  rw [h slot hslot]
  exact hslot

theorem Keeps.holds (h : R.Keeps slots slots') (hslot : R.Holds slots key slot) :
    R.Holds slots' key slot :=
  ⟨h.occupied hslot.1, by rw [h slot hslot.1]; exact hslot.2⟩

theorem Keeps.holdsOther (h : R.Keeps slots slots') (hslot : R.HoldsOther slots key slot) :
    R.HoldsOther slots' key slot :=
  ⟨h.occupied hslot.1, by rw [h slot hslot.1]; exact hslot.2⟩

theorem Keeps.passed (h : R.Keeps slots slots') (hp : R.Passed slots key p) :
    R.Passed slots' key p :=
  fun q hq => h.holdsOther (hp q hq)

theorem keeps_update {x : K × V} (h : R.Occupied slots slot → x.1 = (slots slot).1) :
    R.Keeps slots (Function.update slots slot x) := by
  intro slot' hslot'
  rcases eq_or_ne slot' slot with rfl | hne
  · rw [Function.update_self]
    exact h hslot'
  · rw [Function.update_of_ne hne]

theorem HoldsOther.not_holds (h : R.HoldsOther slots key slot) : ¬ R.Holds slots key slot := by
  intro h'
  rw [HoldsOther, h'.2] at h
  exact absurd h.2 (by simp)

/-- A key all of whose slots before an empty one hold other keys is nowhere. -/
theorem WellPlaced.absent_of_empty (hplaced : R.WellPlaced slots) (hp : p < R.capacity)
    (hpassed : R.Passed slots key p) (hempty : (slots (R.probe key p)).1 = R.emptyKey) :
    ∀ slot < R.capacity, ¬ R.Holds slots key slot := by
  intro slot hslot h
  obtain ⟨q, hq, rfl⟩ := R.exists_position key hslot
  rcases lt_trichotomy q p with hlt | rfl | hgt
  · exact (hpassed q hlt).not_holds h
  · exact h.1.1 hempty
  · exact hplaced.reachable hq h hgt hempty

/-- **Claiming the first free slot for a key that is nowhere keeps the keys well placed.** -/
theorem WellPlaced.claim (hplaced : R.WellPlaced slots) (hp : p < R.capacity)
    (hpassed : R.Passed slots key p) (hfree : ¬ R.Occupied slots (R.probe key p))
    (habsent : ∀ slot < R.capacity, ¬ R.Holds slots key slot) (hkey : key ≠ R.emptyKey) (v : V) :
    R.WellPlaced (Function.update slots (R.probe key p) (key, v)) := by
  have hkeeps : R.Keeps slots (Function.update slots (R.probe key p) (key, v)) :=
    keeps_update fun h => absurd h hfree
  have hother : ∀ {slot k}, slot ≠ R.probe key p →
      (R.Holds (Function.update slots (R.probe key p) (key, v)) k slot ↔ R.Holds slots k slot) := by
    intro slot k hne
    unfold Holds Occupied
    rw [Function.update_of_ne hne]
  refine ⟨fun {a b} ha hb hocc hholds => ?_, fun {k q q'} hq hholds hlt => ?_⟩
  · by_contra hne
    rcases eq_or_ne a (R.probe key p) with rfl | hanp
    · -- the new key is held nowhere else
      rw [Function.update_self] at hholds
      exact habsent b hb ((hother (Ne.symm hne)).mp hholds)
    · rw [Function.update_of_ne hanp] at hholds
      have hocc' : R.Occupied slots a := by
        unfold Occupied at hocc ⊢
        rwa [Function.update_of_ne hanp] at hocc
      rcases eq_or_ne b (R.probe key p) with rfl | hbnp
      · have hsame : R.keyEqual key (slots a).1 = true := by
          have := hholds.2
          rw [Function.update_self] at this
          exact keyEqual_symm this
        exact habsent a ha ⟨hocc', hsame⟩
      · exact hne (hplaced.unique ha hb hocc' ((hother hbnp).mp hholds))
  · rcases eq_or_ne (R.probe k q) (R.probe key p) with heq | hne
    · -- all slots before the new key hold keys
      have hsame : R.keyEqual k key = true := by
        have := hholds.2
        rwa [heq, Function.update_self] at this
      rw [probe_congr hsame] at heq ⊢
      obtain rfl := R.probe_injective key hq hp heq
      exact (hkeeps.occupied (hpassed q' hlt).1).1
    · have hnonempty := hplaced.reachable hq ((hother hne).mp hholds) hlt
      rcases eq_or_ne (R.probe k q') (R.probe key p) with heq | hne'
      · rw [heq, Function.update_self]
        exact hkey
      · rwa [Function.update_of_ne hne']

theorem WellPlaced.congr (hplaced : R.WellPlaced slots)
    (h : ∀ slot, (slots' slot).1 = (slots slot).1) : R.WellPlaced slots' := by
  have hholds : ∀ {k slot}, R.Holds slots' k slot ↔ R.Holds slots k slot := by
    intro k slot
    unfold Holds Occupied
    rw [h]
  refine ⟨fun {a b} ha hb hocc hb' => ?_, fun {k q q'} hq hk hlt => ?_⟩
  · unfold Occupied at hocc
    rw [h] at hocc
    rw [h, hholds] at hb'
    exact hplaced.unique ha hb hocc hb'
  · rw [h]
    exact hplaced.reachable hq (hholds.mp hk) hlt

end Claim

/-! ## 2. Lanes -/

section Lanes

variable {slots' : Slots K V} {j rank : ℕ} {lane : Lane K V}

/-- What an insertion knows of the bucket of a lane, whatever others do meanwhile. -/
def LaneInv (R : MapRef K V) (slots : Slots K V) (key : K) (j rank : ℕ) : Lane K V → Prop
  | .scanning i => i ≤ R.bucketSize ∧ ∀ t < i, R.HoldsOther slots key (R.slotAt key j rank t)
  | .hit i state seen => i < R.bucketSize ∧
      (∀ t < i, R.HoldsOther slots key (R.slotAt key j rank t)) ∧
      (state = .equal ∧ R.Holds slots key (R.slotAt key j rank i) ∨
        state = .available ∧ (seen.1 = R.emptyKey ∨ seen.1 = R.erasedKey))

theorem LaneInv.start (slots : Slots K V) (key : K) (j rank : ℕ) :
    R.LaneInv slots key j rank (.scanning 0) :=
  ⟨Nat.zero_le _, fun t ht => absurd ht (Nat.not_lt_zero t)⟩

theorem LaneInv.keeps (hkeeps : R.Keeps slots slots') (h : R.LaneInv slots key j rank lane) :
    R.LaneInv slots' key j rank lane := by
  cases lane with
  | scanning i => exact ⟨h.1, fun t ht => hkeeps.holdsOther (h.2 t ht)⟩
  | hit i state seen =>
    refine ⟨h.1, fun t ht => hkeeps.holdsOther (h.2.1 t ht), h.2.2.imp_left fun h' => ?_⟩
    exact ⟨h'.1, hkeeps.holds h'.2⟩

theorem LaneInv.read [DecidableEq K] {lane' : Lane K V} (h : R.LaneInv slots key j rank lane)
    (hread : lane.read (R.insertPredicate key) (fun i => slots (R.slotAt key j rank i))
      R.bucketSize = some lane') :
    R.LaneInv slots key j rank lane' := by
  cases lane with
  | hit i state seen => simp [Lane.read] at hread
  | scanning i =>
    rw [Lane.read] at hread
    split at hread
    · rename_i hi
      rcases insertPredicate_spec slots key (R.slotAt key j rank i) with hst | hst | hst
      · rw [hst.1] at hread
        obtain rfl := Option.some.inj hread
        refine ⟨hi, h.2, Or.inr ⟨rfl, ?_⟩⟩
        have hfree := hst.2
        unfold Occupied at hfree
        rwa [not_and_or, not_not, not_not] at hfree
      · rw [hst.1] at hread
        obtain rfl := Option.some.inj hread
        exact ⟨hi, h.2, Or.inl ⟨rfl, hst.2⟩⟩
      · rw [hst.1] at hread
        obtain rfl := Option.some.inj hread
        refine ⟨hi, fun t ht => ?_⟩
        rcases Nat.lt_succ_iff_lt_or_eq.mp ht with hlt | rfl
        · exact h.2 t hlt
        · exact hst.2
    · exact absurd hread (by simp)

variable {lanes : ℕ → Lane K V}

/-- A lane that has finished without stopping has other keys in all slots of its bucket. -/
theorem LaneInv.all_other (h : R.LaneInv slots key j rank lane)
    (hfinished : lane.isFinished R.bucketSize = true)
    (hequal : ∀ i slot, lane ≠ .hit i .equal slot)
    (havailable : ∀ i slot, lane ≠ .hit i .available slot) :
    ∀ t < R.bucketSize, R.HoldsOther slots key (R.slotAt key j rank t) := by
  cases lane with
  | scanning i =>
    have hi : R.bucketSize ≤ i := by simpa [Lane.isFinished] using hfinished
    exact fun t ht => h.2 t (by omega)
  | hit i state seen =>
    rcases h.2.2 with ⟨rfl, -⟩ | ⟨rfl, -⟩
    · exact absurd rfl (hequal i seen)
    · exact absurd rfl (havailable i seen)

/-- **The first available slot of a window**: all slots before it hold other keys. -/
theorem passed_of_available (hpassed : R.Passed slots key (j * R.stride))
    (hinv : ∀ r < R.cgSize, R.LaneInv slots key j r (lanes r))
    (hfinished : ∀ r < R.cgSize, (lanes r).isFinished R.bucketSize = true)
    (hequal : firstLane R.cgSize lanes .equal = none) {i : ℕ} {seen : K × V}
    (havailable : firstLane R.cgSize lanes .available = some (rank, i, seen)) :
    rank < R.cgSize ∧ i < R.bucketSize ∧
      R.Passed slots key (j * R.stride + rank * R.bucketSize + i) ∧
      (seen.1 = R.emptyKey ∨ seen.1 = R.erasedKey) := by
  obtain ⟨hrank, hhit, hbefore⟩ := firstLane_spec havailable
  have hlane := hinv rank hrank
  rw [hhit] at hlane
  obtain ⟨hi, hslots, hstate⟩ := hlane
  refine ⟨hrank, hi, ?_, by simpa using hstate⟩
  refine Probing.forall_before_slot hpassed hrank hi.le (fun r hr => ?_) hslots
  exact (hinv r (by omega)).all_other (hfinished r (by omega))
    (firstLane_eq_none.mp hequal r (by omega)) (hbefore r hr)

/-- **A window with no slot for the key** holds other keys only. -/
theorem passed_of_none (hpassed : R.Passed slots key (j * R.stride))
    (hinv : ∀ r < R.cgSize, R.LaneInv slots key j r (lanes r))
    (hfinished : ∀ r < R.cgSize, (lanes r).isFinished R.bucketSize = true)
    (hequal : firstLane R.cgSize lanes .equal = none)
    (havailable : firstLane R.cgSize lanes .available = none) :
    R.Passed slots key ((j + 1) * R.stride) := by
  refine Probing.forall_before_window hpassed fun r hr => ?_
  exact (hinv r hr).all_other (hfinished r hr) (firstLane_eq_none.mp hequal r hr)
    (firstLane_eq_none.mp havailable r hr)

end Lanes

end MapRef

end Cccl.Cuco
