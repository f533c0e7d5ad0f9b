/-
# Assignments keep the keys unique

In every state of concurrent calls of `insert_or_assign` the keys are well placed.  A key that was there
from the beginning is found by the first search of a call, since it is not moved and no empty slot comes
before it (`AssignInv.afterFind`); so a call that goes on to claim a slot has a key that was not there.
Such a key has been put by another call into the first slot of its search that was free, all slots
before it holding other keys (`AssignInv.fresh`), and so has not been overlooked.
-/
import Cccl.Cuco.InsertOrAssign
import Cccl.Cuco.InsertErased

namespace Cccl.Cuco

variable {K V : Type*}

/-! ## 1. What a call knows -/

section Know

variable {R : MapRef K V}

/-- What a lane knows of the table as it was at the beginning while it looks for the key. -/
def FindLaneInv (R : MapRef K V) (start slots : Slots K V) (key : K) (j rank : ℕ) :
    Lane K V → Prop
  | .scanning i => i ≤ R.bucketSize ∧ ∀ t < i, ¬ R.Holds start key (R.slotAt key j rank t)
  | .hit i state _ => i < R.bucketSize ∧ (∀ t < i, ¬ R.Holds start key (R.slotAt key j rank t)) ∧
      (state = .equal ∧ R.Holds slots key (R.slotAt key j rank i) ∨
        state = .empty ∧ (start (R.slotAt key j rank i)).1 = R.emptyKey)

/-- The key was not there at the beginning, if there are erased slots. -/
def NewKey (R : MapRef K V) (start : Slots K V) (key : K) : Prop :=
  R.emptyKey ≠ R.erasedKey → ∀ slot < R.capacity, ¬ R.Holds start key slot

/-- What a call knows of the table. -/
def AssignPcInv (start : Slots K V) (c : R.AssignCall) (slots : Slots K V) : AssignPc K V → Prop
  | .find j lanes => j < R.numGroups ∧
      (∀ q < j * R.stride, ¬ R.Holds start c.key (R.probe c.key q)) ∧
      ∀ rank < R.cgSize, FindLaneInv R start slots c.key j rank (lanes rank)
  | .probe j lanes => NewKey R start c.key ∧ j < R.numGroups ∧
      R.Passed slots c.key (j * R.stride) ∧
      ∀ rank < R.cgSize, R.LaneInv slots c.key j rank (lanes rank)
  | .casEmpty j rank i => NewKey R start c.key ∧ j < R.numGroups ∧ rank < R.cgSize ∧
      i < R.bucketSize ∧ R.Passed slots c.key (j * R.stride + rank * R.bucketSize + i)
  | .casErased j rank i => NewKey R start c.key ∧ j < R.numGroups ∧ rank < R.cgSize ∧
      i < R.bucketSize ∧ R.Passed slots c.key (j * R.stride + rank * R.bucketSize + i) ∧
      R.emptyKey ≠ R.erasedKey ∧ (start (R.slotAt c.key j rank i)).1 = R.erasedKey
  | .assign slot => slot < R.capacity ∧ R.Holds slots c.key slot
  | .done (some slot) => slot < R.capacity ∧ R.Holds slots c.key slot
  | .done none => R.Passed slots c.key R.capacity

/-- **What others do does not concern a call**, as long as no key is taken out. -/
theorem AssignPcInv.keeps {start slots slots' : Slots K V} {c : R.AssignCall} {pc : AssignPc K V}
    (h : AssignPcInv start c slots pc) (hkeeps : R.Keeps slots slots') :
    AssignPcInv start c slots' pc := by
  cases pc with
  | find j lanes =>
    refine ⟨h.1, h.2.1, fun rank hrank => ?_⟩
    have hlane := h.2.2 rank hrank
    cases hl : lanes rank with
    | scanning i =>
      rw [hl] at hlane
      exact hlane
    | hit i state seen =>
      rw [hl] at hlane
      exact ⟨hlane.1, hlane.2.1, hlane.2.2.imp_left fun he => ⟨he.1, hkeeps.holds he.2⟩⟩
  | probe j lanes =>
    exact ⟨h.1, h.2.1, hkeeps.passed h.2.2.1, fun rank hrank => (h.2.2.2 rank hrank).keeps hkeeps⟩
  | casEmpty j rank i => exact ⟨h.1, h.2.1, h.2.2.1, h.2.2.2.1, hkeeps.passed h.2.2.2.2⟩
  | casErased j rank i =>
    exact ⟨h.1, h.2.1, h.2.2.1, h.2.2.2.1, hkeeps.passed h.2.2.2.2.1, h.2.2.2.2.2⟩
  | assign slot => exact ⟨h.1, hkeeps.holds h.2⟩
  | done slot =>
    cases slot with
    | none => exact hkeeps.passed h
    | some slot => exact ⟨h.1, hkeeps.holds h.2⟩

end Know

/-! ## 2. The invariant -/

section Invariant

variable {ι : Type*} {R : MapRef K V} {calls : ι → R.AssignCall} {start : Slots K V}
  {s : AssignState K V ι}

/-- The payload of the slot is that of a call with the key of the slot. -/
def Assigned (calls : ι → R.AssignCall) (slots : Slots K V) (slot : ℕ) : Prop :=
  ∃ c, R.keyEqual (calls c).key (slots slot).1 = true ∧ (slots slot).2 = (calls c).payload

/-- What holds in every state of the calls on a table. -/
structure AssignInv (calls : ι → R.AssignCall) (start : Slots K V) (s : AssignState K V ι) :
    Prop where
  placed : R.WellPlaced s.slots
  old : R.Keeps start s.slots
  free : ∀ slot, ¬ R.Occupied s.slots slot → (s.slots slot).1 = (start slot).1
  fresh : ∀ {key p}, p < R.capacity → R.Holds s.slots key (R.probe key p) →
    ¬ R.Occupied start (R.probe key p) → R.Passed s.slots key p
  pcs : ∀ c, AssignPcInv start (calls c) s.slots (s.pc c)
  payload : ∀ slot < R.capacity, R.Occupied start slot →
    (s.slots slot).2 = (start slot).2 ∨ Assigned calls s.slots slot
  stored : ∀ c slot, s.pc c = .done (some slot) → Assigned calls s.slots slot

theorem AssignInv.move [DecidableEq ι] (h : AssignInv calls start s) (c : ι) {pc' : AssignPc K V}
    (hpc : AssignPcInv start (calls c) s.slots pc') (hdone : ∀ slot, pc' ≠ .done (some slot)) :
    AssignInv calls start ⟨s.slots, Function.update s.pc c pc'⟩ := by
  refine ⟨h.placed, h.old, h.free, h.fresh, fun c' => ?_, h.payload, fun c' slot hc' => ?_⟩
  · rcases eq_or_ne c' c with rfl | hne
    · simpa only [Function.update_self] using hpc
    · simpa only [Function.update_of_ne hne] using h.pcs c'
  · rcases eq_or_ne c' c with rfl | hne
    · simp only [Function.update_self] at hc'
      exact absurd hc' (hdone slot)
    · simp only [Function.update_of_ne hne] at hc'
      exact h.stored c' slot hc'

/-- **A key that was not there at the beginning, or whose next slot is empty, is nowhere**, if all slots
before a free one hold other keys. -/
theorem AssignInv.absent (h : AssignInv calls start s) {key : K} (hnew : NewKey R start key) {p : ℕ}
    (hp : p < R.capacity) (hpassed : R.Passed s.slots key p)
    (hfree : ¬ R.Occupied s.slots (R.probe key p)) :
    ∀ slot < R.capacity, ¬ R.Holds s.slots key slot := by
  rcases eq_or_ne (s.slots (R.probe key p)).1 R.emptyKey with hempty | hne
  · exact h.placed.absent_of_empty hp hpassed hempty
  -- the slot is erased, so slots can be
  have herased : (s.slots (R.probe key p)).1 = R.erasedKey := by
    by_contra hne'
    exact hfree ⟨hne, hne'⟩
  intro slot hslot hholds
  obtain ⟨q, hq, rfl⟩ := R.exists_position key hslot
  have hnot : ¬ R.Occupied start (R.probe key q) := by
    intro hocc
    refine hnew (fun heq => hne (herased.trans heq.symm)) _ hslot ⟨hocc, ?_⟩
    rw [← h.old _ hocc]
    exact hholds.2
  rcases lt_trichotomy q p with hlt | rfl | hgt
  · exact (hpassed q hlt).not_holds hholds
  · exact hfree hholds.1
  · exact hfree (h.fresh hq hholds hnot p hgt).1

theorem MapRef.HoldsOther.congr {slots : Slots K V} {a b : K} {slot : ℕ}
    (hab : R.keyEqual a b = true) (h : R.HoldsOther slots a slot) : R.HoldsOther slots b slot := by
  refine ⟨h.1, ?_⟩
  by_contra hb
  rw [Bool.not_eq_false] at hb
  exact h.not_holds ⟨h.1, MapRef.keyEqual_trans hab hb⟩

theorem AssignInv.claim [DecidableEq ι] (h : AssignInv calls start s) (c : ι) (hnew : NewKey R start (calls c).key)
    {p : ℕ} (hp : p < R.capacity) (hpassed : R.Passed s.slots (calls c).key p)
    (hfree : ¬ R.Occupied s.slots (R.probe (calls c).key p)) (v : V) :
    AssignInv calls start
      ⟨Function.update s.slots (R.probe (calls c).key p) ((calls c).key, v),
        Function.update s.pc c (.assign (R.probe (calls c).key p))⟩ := by
  have hkeeps : R.Keeps s.slots
      (Function.update s.slots (R.probe (calls c).key p) ((calls c).key, v)) :=
    MapRef.keeps_update fun ho => absurd ho hfree
  have hstart : ¬ R.Occupied start (R.probe (calls c).key p) := fun ho => hfree (h.old.occupied ho)
  have hother : ∀ {slot}, slot ≠ R.probe (calls c).key p →
      Function.update s.slots (R.probe (calls c).key p) ((calls c).key, v) slot = s.slots slot :=
    fun hne => Function.update_of_ne hne _ _
  have hassigned : ∀ {slot}, slot ≠ R.probe (calls c).key p → Assigned calls s.slots slot →
      Assigned calls (Function.update s.slots (R.probe (calls c).key p) ((calls c).key, v)) slot := by
    intro slot hne ha
    unfold Assigned
    rwa [hother hne]
  refine ⟨?_, ?_, fun slot hfree' => ?_, fun {key q} hq hholds hnot => ?_, fun c' => ?_,
    fun slot hslot hocc => ?_, fun c' slot hc' => ?_⟩
  · exact h.placed.claim hp hpassed hfree (h.absent hnew hp hpassed hfree) (calls c).key_ne_empty v
  · intro slot hocc
    rw [hkeeps slot (h.old.occupied hocc), h.old slot hocc]
  · rcases eq_or_ne slot (R.probe (calls c).key p) with rfl | hne
    · unfold MapRef.Occupied at hfree'
      simp only [Function.update_self] at hfree'
      exact absurd ⟨(calls c).key_ne_empty, (calls c).key_ne_erased⟩ hfree'
    · unfold MapRef.Occupied at hfree'
      simp only [hother hne] at hfree' ⊢
      exact h.free slot hfree'
  · rcases eq_or_ne (R.probe key q) (R.probe (calls c).key p) with heq | hne
    · -- the slot just claimed
      have hsame : R.keyEqual key (calls c).key = true := by
        have := hholds.2
        simp only [heq, Function.update_self] at this
        exact this
      rw [MapRef.probe_congr hsame] at heq
      obtain rfl := R.probe_injective _ hq hp heq
      intro r hr
      rw [MapRef.probe_congr hsame]
      exact (hkeeps.passed hpassed r hr).congr (MapRef.keyEqual_symm hsame)
    · refine hkeeps.passed (h.fresh hq ?_ hnot)
      unfold MapRef.Holds MapRef.Occupied at hholds ⊢
      simp only [hother hne] at hholds
      exact hholds
  · rcases eq_or_ne c' c with rfl | hne
    · simp only [Function.update_self]
      refine ⟨R.probe_lt _ _, ?_⟩
      unfold MapRef.Holds MapRef.Occupied
      simp only [Function.update_self]
      exact ⟨⟨(calls c').key_ne_empty, (calls c').key_ne_erased⟩, MapRef.keyEqual_refl _⟩
    · simp only [Function.update_of_ne hne]
      exact (h.pcs c').keeps hkeeps
  · have hne : slot ≠ R.probe (calls c).key p := by
      rintro rfl
      exact hstart hocc
    simp only [hother hne]
    exact (h.payload slot hslot hocc).imp_right (hassigned hne)
  · rcases eq_or_ne c' c with rfl | hne
    · simp only [Function.update_self, reduceCtorEq] at hc'
    · simp only [Function.update_of_ne hne] at hc'
      refine hassigned ?_ (h.stored c' slot hc')
      rintro rfl
      have hinv := h.pcs c'
      rw [hc'] at hinv
      exact hfree hinv.2.1

theorem AssignInv.assign [DecidableEq ι] (h : AssignInv calls start s) {c : ι} {slot : ℕ}
    (hpc : s.pc c = .assign slot) :
    AssignInv calls start
      ⟨Function.update s.slots slot ((s.slots slot).1, (calls c).payload),
        Function.update s.pc c (.done (some slot))⟩ := by
  have hinv := h.pcs c
  rw [hpc] at hinv
  have hkey : ∀ slot', (Function.update s.slots slot ((s.slots slot).1, (calls c).payload)
      slot').1 = (s.slots slot').1 := by
    intro slot'
    rcases eq_or_ne slot' slot with rfl | hne
    · rw [Function.update_self]
    · rw [Function.update_of_ne hne]
  have hkeeps : R.Keeps s.slots
      (Function.update s.slots slot ((s.slots slot).1, (calls c).payload)) :=
    fun slot' _ => hkey slot'
  have hself : Assigned calls
      (Function.update s.slots slot ((s.slots slot).1, (calls c).payload)) slot := by
    refine ⟨c, ?_, by rw [Function.update_self]⟩
    rw [hkey]
    exact hinv.2.2
  have hassigned : ∀ {slot'}, Assigned calls s.slots slot' → Assigned calls
      (Function.update s.slots slot ((s.slots slot).1, (calls c).payload)) slot' := by
    intro slot' ha
    rcases eq_or_ne slot' slot with rfl | hne
    · exact hself
    · unfold Assigned
      rwa [Function.update_of_ne hne]
  refine ⟨h.placed.congr hkey, fun slot' ho => by rw [hkey]; exact h.old slot' ho,
    fun slot' hfree => ?_, fun hq hholds hnot => ?_, fun c' => ?_,
    fun slot' hslot' ho => ?_, fun c' slot' hc' => ?_⟩
  · unfold MapRef.Occupied at hfree
    simp only [hkey] at hfree ⊢
    exact h.free slot' hfree
  · refine hkeeps.passed (h.fresh hq ?_ hnot)
    unfold MapRef.Holds MapRef.Occupied at hholds ⊢
    simpa only [hkey] using hholds
  · rcases eq_or_ne c' c with rfl | hne
    · simp only [Function.update_self]
      exact ⟨hinv.1, hkeeps.holds hinv.2⟩
    · simp only [Function.update_of_ne hne]
      exact (h.pcs c').keeps hkeeps
  · rcases eq_or_ne slot' slot with rfl | hne
    · exact Or.inr hself
    · simp only [Function.update_of_ne hne]
      refine (h.payload slot' hslot' ho).imp_right fun ha => ?_
      exact hassigned ha
  · rcases eq_or_ne c' c with rfl | hne
    · simp only [Function.update_self, AssignPc.done.injEq, Option.some.injEq] at hc'
      rw [← hc']
      exact hself
    · simp only [Function.update_of_ne hne] at hc'
      exact hassigned (h.stored c' slot' hc')

/-! ## 3. The first search -/

/-- The erased key is equivalent to no other key. -/
def MapRef.ErasedReserved (R : MapRef K V) : Prop :=
  R.emptyKey ≠ R.erasedKey → ∀ key, key ≠ R.erasedKey → R.keyEqual key R.erasedKey = false

variable [DecidableEq K]

theorem MapRef.ErasedReserved.lookupPredicate_spec (hreserved : R.ErasedReserved) (slots : Slots K V)
    {key : K} (hkey : key ≠ R.erasedKey) (slot : ℕ) :
    (R.lookupPredicate key (slots slot).1 = .empty ∧ (slots slot).1 = R.emptyKey) ∨
    (R.lookupPredicate key (slots slot).1 = .equal ∧ R.Holds slots key slot) ∨
    (R.lookupPredicate key (slots slot).1 = .unequal ∧ ¬ R.Holds slots key slot) := by
  unfold MapRef.lookupPredicate MapRef.equalTo
  rcases eq_or_ne (slots slot).1 R.emptyKey with hempty | hempty
  · exact Or.inl (by simp [hempty])
  rw [if_neg hempty]
  cases hequal : R.keyEqual key (slots slot).1 with
  | false =>
    refine Or.inr (Or.inr ⟨by simp, fun hholds => ?_⟩)
    rw [MapRef.Holds, hequal] at hholds
    exact absurd hholds.2 (by simp)
  | true =>
    refine Or.inr (Or.inl ⟨by simp, ⟨hempty, fun herased => ?_⟩, hequal⟩)
    rw [herased] at hempty hequal
    rw [hreserved hempty.symm key hkey] at hequal
    exact absurd hequal (by simp)

theorem AssignInv.readFind (h : AssignInv calls start s) (hreserved : R.ErasedReserved) {key : K}
    (hkey : key ≠ R.erasedKey) {j rank : ℕ} {lane lane' : Lane K V}
    (hlane : FindLaneInv R start s.slots key j rank lane)
    (hread : lane.read (R.lookupPredicate key) (fun i => s.slots (R.slotAt key j rank i))
      R.bucketSize = some lane') :
    FindLaneInv R start s.slots key j rank lane' := by
  cases lane with
  | hit i state seen => simp [Lane.read] at hread
  | scanning i =>
    rw [Lane.read] at hread
    split at hread
    · rename_i hi
      rcases hreserved.lookupPredicate_spec s.slots hkey (R.slotAt key j rank i) with hst | hst | hst
      · rw [hst.1] at hread
        obtain rfl := Option.some.inj hread
        refine ⟨hi, hlane.2, Or.inr ⟨rfl, ?_⟩⟩
        rw [← h.free _ fun ho => ho.1 hst.2]
        exact hst.2
      · rw [hst.1] at hread
        obtain rfl := Option.some.inj hread
        exact ⟨hi, hlane.2, Or.inl ⟨rfl, hst.2⟩⟩
      · rw [hst.1] at hread
        obtain rfl := Option.some.inj hread
        refine ⟨hi, fun t ht => ?_⟩
        rcases Nat.lt_succ_iff_lt_or_eq.mp ht with hlt | rfl
        · exact hlane.2 t hlt
        · exact fun hholds => hst.2 (h.old.holds hholds)
    · exact absurd hread (by simp)

omit [DecidableEq K] in
/-- **A search that ends at an empty slot has not overlooked a key.** -/
theorem not_holds_of_empty (hplaced : R.WellPlaced start) {slots : Slots K V} {key : K} {j : ℕ}
    {lanes : ℕ → Lane K V} (hbefore : ∀ q < j * R.stride, ¬ R.Holds start key (R.probe key q))
    (hlanes : ∀ rank < R.cgSize, FindLaneInv R start slots key j rank (lanes rank))
    (hfinished : ∀ rank < R.cgSize, (lanes rank).isFinished R.bucketSize = true)
    (hequal : firstLane R.cgSize lanes .equal = none) {rank i : ℕ} {seen : K × V}
    (hempty : firstLane R.cgSize lanes .empty = some (rank, i, seen)) :
    ∀ slot < R.capacity, ¬ R.Holds start key slot := by
  intro slot hslot hholds
  obtain ⟨q, hq, rfl⟩ := R.exists_position key hslot
  -- an empty slot comes after the key
  have hafter : ∀ {r t}, r < R.cgSize → t < R.bucketSize →
      (start (R.slotAt key j r t)).1 = R.emptyKey →
      q < j * R.stride + r * R.bucketSize + t := by
    intro r t hr ht hslot'
    rw [R.slotAt_eq hr ht] at hslot'
    rcases lt_trichotomy q (j * R.stride + r * R.bucketSize + t) with hlt | rfl | hgt
    · exact hlt
    · exact absurd hslot' hholds.1.1
    · exact absurd hslot' (hplaced.reachable hq hholds hgt)
  obtain ⟨hrank, hhit, -⟩ := firstLane_spec hempty
  have hlane := hlanes rank hrank
  rw [hhit] at hlane
  obtain ⟨hi, -, ⟨hno, -⟩ | ⟨-, hslot'⟩⟩ := hlane
  · exact absurd hno (by simp)
  have hlt := hafter hrank hi hslot'
  have hge : j * R.stride ≤ q := by
    by_contra hlt'
    exact hbefore q (by omega) hholds
  -- so the key is in this window, and its lane has not found it
  obtain ⟨r, rfl⟩ := Nat.exists_eq_add_of_le hge
  have hwindow := R.lane_lt hrank hi
  obtain ⟨rank', hrank', t, ht, rfl⟩ := R.exists_lane (r := r) (by omega)
  rw [← Nat.add_assoc, ← R.slotAt_eq hrank' ht] at hholds
  have hlane := hlanes rank' hrank'
  cases hl : lanes rank' with
  | scanning i' =>
    have hfin := hfinished rank' hrank'
    rw [hl] at hlane hfin
    have hi' : R.bucketSize ≤ i' := by simpa [Lane.isFinished] using hfin
    exact hlane.2 t (by omega) hholds
  | hit i' state seen' =>
    rw [hl] at hlane
    obtain ⟨hi', hother, ⟨rfl, -⟩ | ⟨rfl, hslot''⟩⟩ := hlane
    · exact firstLane_eq_none.mp hequal rank' hrank' i' seen' hl
    · rcases Nat.lt_or_ge t i' with hlt' | hge'
      · exact hother t hlt' hholds
      · have := hafter hrank' hi' hslot''
        omega

omit [DecidableEq K] in
theorem AssignInv.afterFind [DecidableEq ι] (h : AssignInv calls start s)
    (hstart : R.WellPlaced start) {c : ι} {j : ℕ} {lanes : ℕ → Lane K V}
    (hpc : s.pc c = .find j lanes)
    (hfinished : ∀ rank < R.cgSize, (lanes rank).isFinished R.bucketSize = true) :
    AssignInv calls start ⟨s.slots, Function.update s.pc c (MapRef.afterFind (calls c) j lanes)⟩ := by
  have hinv := h.pcs c
  rw [hpc] at hinv
  obtain ⟨hj, hbefore, hlanes⟩ := hinv
  have hprobe : (∀ slot < R.capacity, ¬ R.Holds start (calls c).key slot) →
      AssignPcInv start (calls c) s.slots (.probe 0 MapRef.freshLanes) := by
    intro habsent
    exact ⟨fun _ => habsent, R.numGroups_pos, fun q hq => absurd hq (by simp),
      fun rank _ => .start _ _ _ _⟩
  unfold MapRef.afterFind
  split
  · rename_i rank i seen hequal
    obtain ⟨hrank, hhit, -⟩ := firstLane_spec hequal
    have hlane := hlanes rank hrank
    rw [hhit] at hlane
    obtain ⟨hi, -, ⟨-, hholds⟩ | ⟨hno, -⟩⟩ := hlane
    · refine h.move c ⟨?_, hholds⟩ (by simp)
      rw [R.slotAt_eq hrank hi]
      exact R.probe_lt _ _
    · exact absurd hno (by simp)
  rename_i hequal
  split
  · rename_i hsome
    obtain ⟨⟨rank, i, seen⟩, hempty⟩ := Option.isSome_iff_exists.mp hsome
    exact h.move c (hprobe (not_holds_of_empty hstart hbefore hlanes hfinished hequal hempty))
      (by simp)
  rename_i hnone
  -- no lane has stopped, so the key was not in this window
  have hnext : ∀ q < (j + 1) * R.stride, ¬ R.Holds start (calls c).key (R.probe (calls c).key q) := by
    refine Probing.forall_before_window (X := fun slot => ¬ R.Holds start (calls c).key slot)
      hbefore fun rank hrank t ht => ?_
    have hlane := hlanes rank hrank
    cases hl : lanes rank with
    | scanning i =>
      have hfin := hfinished rank hrank
      rw [hl] at hlane hfin
      have hi : R.bucketSize ≤ i := by simpa [Lane.isFinished] using hfin
      exact hlane.2 t (by omega)
    | hit i state seen =>
      rw [hl] at hlane
      rcases hlane.2.2 with ⟨rfl, -⟩ | ⟨rfl, -⟩
      · exact absurd hl (firstLane_eq_none.mp hequal rank hrank i seen)
      · rw [Option.not_isSome_iff_eq_none] at hnone
        exact absurd hl (firstLane_eq_none.mp hnone rank hrank i seen)
  split
  · rename_i hwrap
    rw [R.iterator_wraps R.cgSize_pos _ (by omega) (by omega)] at hwrap
    refine h.move c (hprobe fun slot hslot => ?_) (by simp)
    obtain ⟨p, hp, rfl⟩ := R.exists_position (calls c).key hslot
    rw [hwrap, ← R.capacity_eq] at hnext
    exact hnext p hp
  · rename_i hwrap
    rw [R.iterator_wraps R.cgSize_pos _ (by omega) (by omega)] at hwrap
    refine h.move c ⟨by omega, hnext, fun rank _ => ⟨Nat.zero_le _, fun t ht => ?_⟩⟩ (by simp)
    exact absurd ht (Nat.not_lt_zero t)

/-! ## 4. The second search and the claim -/

omit [DecidableEq K] in
theorem AssignInv.afterProbe [DecidableEq ι] (h : AssignInv calls start s) {c : ι} {j : ℕ}
    {lanes : ℕ → Lane K V} (hpc : s.pc c = .probe j lanes)
    (hfinished : ∀ rank < R.cgSize, (lanes rank).isFinished R.bucketSize = true) :
    AssignInv calls start
      ⟨s.slots, Function.update s.pc c (MapRef.afterProbe (calls c) j lanes)⟩ := by
  have hinv := h.pcs c
  rw [hpc] at hinv
  obtain ⟨hnew, hj, hpassed, hlanes⟩ := hinv
  unfold MapRef.afterProbe
  split
  · rename_i rank i seen hequal
    obtain ⟨hrank, hhit, -⟩ := firstLane_spec hequal
    have hlane := hlanes rank hrank
    rw [hhit] at hlane
    obtain ⟨hi, -, ⟨-, hholds⟩ | ⟨hno, -⟩⟩ := hlane
    · refine h.move c ⟨?_, hholds⟩ (by simp)
      rw [R.slotAt_eq hrank hi]
      exact R.probe_lt _ _
    · exact absurd hno (by simp)
  rename_i hequal
  split
  · rename_i rank i seen havailable
    obtain ⟨hrank, hi, hbefore, -⟩ :=
      MapRef.passed_of_available hpassed hlanes hfinished hequal havailable
    exact h.move c ⟨hnew, hj, hrank, hi, hbefore⟩ (by simp)
  · rename_i havailable
    have hnext := MapRef.passed_of_none hpassed hlanes hfinished hequal havailable
    split
    · rename_i hwrap
      rw [R.iterator_wraps R.cgSize_pos _ (by omega) (by omega)] at hwrap
      rw [hwrap, ← R.capacity_eq] at hnext
      exact h.move c hnext (by simp)
    · rename_i hwrap
      rw [R.iterator_wraps R.cgSize_pos _ (by omega) (by omega)] at hwrap
      exact h.move c ⟨hnew, by omega, hnext, fun rank _ => .start _ _ _ _⟩ (by simp)

theorem AssignInv.lost [DecidableEq ι] (h : AssignInv calls start s) {c : ι} {j rank i : ℕ}
    (hnew : NewKey R start (calls c).key) (hj : j < R.numGroups) (hrank : rank < R.cgSize)
    (hi : i < R.bucketSize)
    (hpassed : R.Passed s.slots (calls c).key (j * R.stride + rank * R.bucketSize + i))
    (hocc : R.Occupied s.slots (R.slotAt (calls c).key j rank i)) :
    AssignInv calls start ⟨s.slots, Function.update s.pc c (MapRef.afterLost (calls c) j rank i
      (s.slots (R.slotAt (calls c).key j rank i)).1)⟩ := by
  unfold MapRef.afterLost MapRef.lookupPredicate MapRef.equalTo
  rw [if_neg hocc.1]
  cases hequal : R.keyEqual (calls c).key (s.slots (R.slotAt (calls c).key j rank i)).1 with
  | true =>
    refine h.move c ⟨?_, hocc, hequal⟩ (by simp)
    rw [R.slotAt_eq hrank hi]
    exact R.probe_lt _ _
  | false =>
    have hbefore : R.Passed s.slots (calls c).key (j * R.stride) := fun q hq =>
      hpassed q (by omega)
    simp only [Bool.false_eq_true, if_false, reduceCtorEq]
    split
    · -- a single thread goes on with the next slot
      rename_i hform
      have hone := (calls c).cgSize_eq hform
      refine h.move c ⟨hnew, hj, hbefore, fun rank' hrank' => ⟨hi, fun t ht => ?_⟩⟩ (by simp)
      obtain rfl : rank' = rank := by omega
      rcases Nat.lt_succ_iff_lt_or_eq.mp ht with hlt | rfl
      · rw [R.slotAt_eq hrank (by omega)]
        exact hpassed _ (by omega)
      · exact ⟨hocc, hequal⟩
    · exact h.move c ⟨hnew, hj, hbefore, fun rank' _ => .start _ _ _ _⟩ (by simp)

/-- **Every step of an assignment keeps the invariant.** -/
theorem AssignInv.step [DecidableEq ι] (h : AssignInv calls start s) (hstart : R.WellPlaced start)
    (hreserved : R.ErasedReserved) {c : ι} {m : Move} {s' : AssignState K V ι}
    (hstep : assignStep calls s c m = some s') : AssignInv calls start s' := by
  obtain ⟨⟨slots', pc'⟩, hcall, rfl⟩ := Option.map_eq_some_iff.mp hstep
  have hinv := h.pcs c
  cases hpc : s.pc c with
  | find j lanes =>
    rw [hpc] at hcall hinv
    cases m with
    | read rank =>
      simp only [MapRef.assignCallStep] at hcall
      split at hcall
      · rename_i hrank
        obtain ⟨lane, hread, hnew⟩ := Option.map_eq_some_iff.mp hcall
        obtain ⟨rfl, rfl⟩ := Prod.mk.inj hnew
        refine h.move c ⟨hinv.1, hinv.2.1, fun rank' hrank' => ?_⟩ (by simp)
        rcases eq_or_ne rank' rank with rfl | hne
        · rw [Function.update_self]
          exact h.readFind hreserved (calls c).key_ne_erased (hinv.2.2 rank' hrank') hread
        · rw [Function.update_of_ne hne]
          exact hinv.2.2 rank' hrank'
      · exact absurd hcall (by simp)
    | go =>
      simp only [MapRef.assignCallStep] at hcall
      split at hcall
      · rename_i hfinished
        obtain ⟨rfl, rfl⟩ := Prod.mk.inj (Option.some.inj hcall)
        refine h.afterFind hstart hpc fun rank hrank => ?_
        exact List.all_eq_true.mp hfinished rank (List.mem_range.mpr hrank)
      · exact absurd hcall (by simp)
  | probe j lanes =>
    rw [hpc] at hcall hinv
    cases m with
    | read rank =>
      simp only [MapRef.assignCallStep] at hcall
      split at hcall
      · rename_i hrank
        obtain ⟨lane, hread, hnew⟩ := Option.map_eq_some_iff.mp hcall
        obtain ⟨rfl, rfl⟩ := Prod.mk.inj hnew
        refine h.move c ⟨hinv.1, hinv.2.1, hinv.2.2.1, fun rank' hrank' => ?_⟩ (by simp)
        rcases eq_or_ne rank' rank with rfl | hne
        · rw [Function.update_self]
          exact (hinv.2.2.2 rank' hrank').read hread
        · rw [Function.update_of_ne hne]
          exact hinv.2.2.2 rank' hrank'
      · exact absurd hcall (by simp)
    | go =>
      simp only [MapRef.assignCallStep] at hcall
      split at hcall
      · rename_i hfinished
        obtain ⟨rfl, rfl⟩ := Prod.mk.inj (Option.some.inj hcall)
        refine h.afterProbe hpc fun rank hrank => ?_
        exact List.all_eq_true.mp hfinished rank (List.mem_range.mpr hrank)
      · exact absurd hcall (by simp)
  | casEmpty j rank i =>
    rw [hpc] at hcall hinv
    obtain ⟨hnew, hj, hrank, hi, hpassed⟩ := hinv
    have hslot := R.slotAt_eq hrank hi (calls c).key j
    cases m with
    | read rank => exact absurd hcall (by simp [MapRef.assignCallStep])
    | go =>
      simp only [MapRef.assignCallStep] at hcall
      split at hcall
      · rename_i hempty
        obtain ⟨rfl, rfl⟩ := Prod.mk.inj (Option.some.inj hcall)
        rw [hslot] at hempty ⊢
        exact h.claim c hnew (R.position_lt hj hrank hi) hpassed (fun ho => ho.1 hempty) _
      rename_i hne
      split at hcall
      · rename_i herased
        obtain ⟨rfl, rfl⟩ := Prod.mk.inj (Option.some.inj hcall)
        refine h.move c ⟨hnew, hj, hrank, hi, hpassed, fun heq => ?_, ?_⟩ (by simp)
        · exact hne (herased.2.trans heq.symm)
        · rw [← h.free _ fun ho => ho.2 herased.2]
          exact herased.2
      · rename_i hne'
        obtain ⟨rfl, rfl⟩ := Prod.mk.inj (Option.some.inj hcall)
        refine h.lost hnew hj hrank hi hpassed ⟨hne, fun herased => hne' ⟨?_, herased⟩⟩
        simp only [MapRef.supportsErase, decide_eq_true_eq]
        exact fun heq => hne (herased.trans heq.symm)
  | casErased j rank i =>
    rw [hpc] at hcall hinv
    obtain ⟨hnew, hj, hrank, hi, hpassed, hsentinels, hwas⟩ := hinv
    have hslot := R.slotAt_eq hrank hi (calls c).key j
    cases m with
    | read rank => exact absurd hcall (by simp [MapRef.assignCallStep])
    | go =>
      simp only [MapRef.assignCallStep] at hcall
      split at hcall
      · rename_i herased
        obtain ⟨rfl, rfl⟩ := Prod.mk.inj (Option.some.inj hcall)
        rw [hslot] at herased ⊢
        exact h.claim c hnew (R.position_lt hj hrank hi) hpassed (fun ho => ho.2 herased) _
      · rename_i hne
        obtain ⟨rfl, rfl⟩ := Prod.mk.inj (Option.some.inj hcall)
        refine h.lost hnew hj hrank hi hpassed ⟨fun hempty => hsentinels ?_, hne⟩
        rw [← hempty, ← hwas]
        exact h.free _ fun ho => ho.1 hempty
  | assign slot =>
    rw [hpc] at hcall
    cases m with
    | read rank => exact absurd hcall (by simp [MapRef.assignCallStep])
    | go =>
      obtain ⟨rfl, rfl⟩ := Prod.mk.inj (Option.some.inj hcall)
      exact h.assign hpc
  | done slot =>
    rw [hpc] at hcall
    exact absurd hcall (by simp [MapRef.assignCallStep])

theorem AssignInv.init (hstart : R.WellPlaced start) :
    AssignInv calls start (assignInit R start) := by
  refine ⟨hstart, .refl _, fun _ _ => rfl, fun _ hholds hnot => absurd hholds.1 hnot, fun c => ?_,
    fun _ _ _ => Or.inl rfl, fun c slot hc => ?_⟩
  · simp only [assignInit]
    split
    · refine ⟨R.numGroups_pos, fun q hq => absurd hq (by simp), fun rank _ => ⟨Nat.zero_le _, ?_⟩⟩
      exact fun t ht => absurd ht (Nat.not_lt_zero t)
    · rename_i herase
      refine ⟨fun hne => ?_, R.numGroups_pos, fun q hq => absurd hq (by simp),
        fun rank _ => .start _ _ _ _⟩
      exact absurd (by simpa [MapRef.supportsErase] using hne) herase
  · simp only [assignInit] at hc
    split at hc <;> simp at hc

theorem AssignInv.of_reachable [DecidableEq ι] (hstart : R.WellPlaced start)
    (hreserved : R.ErasedReserved) (h : (assignRuns calls start).Reachable s) :
    AssignInv calls start s := by
  refine h.invariant (P := AssignInv calls start) ?_ ?_
  · rintro s rfl
    exact .init hstart
  · intro s a s' hs hstep
    exact hs.step hstart hreserved hstep

/-! ## 5. What the calls come to -/

/-- All calls have returned. -/
def AssignState.AllReturned (s : AssignState K V ι) : Prop :=
  ∀ c, ∃ slot, s.pc c = .done slot

/-- **Concurrent assignments keep the keys unique**, on every table whose slots are empty, erased or
hold well placed keys: in every state of every run a key is held by at most one slot, which a lookup
finds; the payload of a key that no call assigns stays as it was; and when all calls have returned, each
assigned key is there with the payload of a call that has assigned it, unless all slots hold other
keys. -/
theorem insertOrAssign_unique [DecidableEq ι] (R : MapRef K V) (hreserved : R.ErasedReserved)
    (calls : ι → R.AssignCall) (start : Slots K V) (hstart : R.WellPlaced start)
    (s : AssignState K V ι) (h : (assignRuns calls start).Reachable s) :
    (∀ a < R.capacity, ∀ b < R.capacity, R.Occupied s.slots a → R.Occupied s.slots b →
      R.keyEqual (s.slots a).1 (s.slots b).1 = true → a = b) ∧
    (∀ form, (form = .scalar → R.cgSize = 1) → ∀ slot < R.capacity, ∀ key,
      key ≠ R.erasedKey → R.Holds s.slots key slot → R.find form s.slots key = some (some slot)) ∧
    (∀ slot < R.capacity, R.Occupied start slot →
      (∀ c, R.keyEqual (calls c).key (start slot).1 = false) → s.slots slot = start slot) ∧
    (s.AllReturned → ∀ c,
      (∃ slot < R.capacity, R.Holds s.slots (calls c).key slot ∧
        ∃ c', R.keyEqual (calls c).key (calls c').key = true ∧
          (s.slots slot).2 = (calls c').payload) ∨
      ∀ slot < R.capacity, R.HoldsOther s.slots (calls c).key slot) := by
  have hinv := AssignInv.of_reachable hstart hreserved h
  refine ⟨fun a ha b hb hoa hob hkey => hinv.placed.unique ha hb hoa ⟨hob, hkey⟩,
    fun form hform slot hslot key hkey hholds => ?_, fun slot hslot hocc hnone => ?_,
    fun hall c => ?_⟩
  · refine hinv.placed.lookup_of_holds hform (fun slot' _ hne herased => ?_) hslot hholds
    exact hreserved (fun heq => hne (herased.trans heq.symm)) key hkey
  · have hsame := hinv.old slot hocc
    refine Prod.ext hsame ((hinv.payload slot hslot hocc).resolve_right ?_)
    rintro ⟨c, hkey, -⟩
    rw [hsame, hnone c] at hkey
    exact absurd hkey (by simp)
  · obtain ⟨r, hret⟩ := hall c
    have hpc := hinv.pcs c
    rw [hret] at hpc
    cases r with
    | none =>
      right
      intro slot hslot
      obtain ⟨p, hp, rfl⟩ := R.exists_position (calls c).key hslot
      exact hpc p hp
    | some slot =>
      obtain ⟨c', hkey, hpayload⟩ := hinv.stored c slot hret
      refine Or.inl ⟨slot, hpc.1, hpc.2, c', ?_, hpayload⟩
      exact MapRef.keyEqual_trans hpc.2.2 (MapRef.keyEqual_symm hkey)

end Invariant

/-! ## 6. Two calls on two slots -/

section TwoSlots

variable {ι : Type*} [DecidableEq ι] {R : MapRef ℕ ℕ} (calls : ι → R.AssignCall)
  {start : Slots ℕ ℕ}

def assignRun : List (ι × Move) → AssignState ℕ ℕ ι → Option (AssignState ℕ ℕ ι)
  | [], s => some s
  | a :: l, s => (assignStep calls s a.1 a.2).bind (assignRun l)

theorem reachable_of_assignRun :
    ∀ (l : List (ι × Move)) {s s' : AssignState ℕ ℕ ι}, (assignRuns calls start).Reachable s →
      assignRun calls l s = some s' → (assignRuns calls start).Reachable s'
  | [], s, s', h, hrun => by
    obtain rfl := Option.some.inj hrun
    exact h
  | a :: l, s, s', h, hrun => by
    obtain ⟨s₁, hstep, hrest⟩ := Option.bind_eq_some_iff.mp hrun
    exact reachable_of_assignRun l (.step (a := a) h hstep) hrest

/-- One call assigns to a key that is there, the other one brings a new key. -/
def oldAndNew : Bool → twoErasable.AssignCall
  | false => ⟨1, 6, .scalar, by decide, by decide, fun _ => rfl⟩
  | true => ⟨2, 7, .scalar, by decide, by decide, fun _ => rfl⟩

/-- The key behind the erased slot gets its new payload, and the new key the erased slot. -/
theorem insertOrAssign_unique_reuse :
    ∃ s, (assignRuns oldAndNew (erasedThen (1, 5))).Reachable s ∧ s.slots 0 = (2, 7) ∧
      s.slots 1 = (1, 6) ∧ ∃ slot < twoErasable.capacity, twoErasable.Holds s.slots 2 slot ∧
        twoErasable.find .scalar s.slots 2 = some (some slot) := by
  have hreserved : twoErasable.ErasedReserved := fun _ key hkey => by
    simpa [twoErasable, twoSlots] using hkey
  have hplaced := (erasedThen_withErased (Or.inr rfl)).placed
  refine ⟨_, reachable_of_assignRun oldAndNew [(true, .read 0), (true, .go), (false, .read 0),
    (false, .go), (true, .read 0), (true, .go), (true, .read 0), (true, .go), (true, .go),
    (false, .read 0), (false, .go), (true, .go), (false, .go), (true, .go)] (.init rfl) rfl, rfl,
    rfl, 0, by decide, by decide, ?_⟩
  refine (insertOrAssign_unique twoErasable hreserved oldAndNew (erasedThen (1, 5)) hplaced _
    (reachable_of_assignRun oldAndNew [(true, .read 0), (true, .go), (false, .read 0),
    (false, .go), (true, .read 0), (true, .go), (true, .read 0), (true, .go), (true, .go),
    (false, .read 0), (false, .go), (true, .go), (false, .go), (true, .go)] (.init rfl) rfl)).2.1
    .scalar (fun _ => rfl) 0 (by decide) 2 (by decide) (by decide)

end TwoSlots

end Cccl.Cuco
