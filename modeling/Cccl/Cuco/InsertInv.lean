/-
# What concurrent insertions keep

The calls of a run share the slots, and each knows something of them that no other call makes false
(`PcInv`): which slots hold other keys than its own, that the slot it has claimed holds its key, that a
payload it has written is there.  A slot that holds a key was there from the beginning or has been
claimed by a call that still stands for it (`InsertInv.owner`).

With `back_to_back_cas` a call that has lost a slot may have put its payload there nevertheless, and
takes it out again.  Between the two it is as if it held a lock: the payload differs from the
sentinel, so no other exchange of it succeeds.  At most one call at a time relies on the payload of a
slot (`InsertInv.pins_unique`).
-/
import Cccl.Cuco.Insert

namespace Cccl.Cuco

variable {K V : Type*} {R : MapRef K V}

/-! ## 1. What a call knows -/

/-- Not one of the sentinels. -/
def MapRef.IsKey (R : MapRef K V) (key : K) : Prop :=
  key ≠ R.emptyKey ∧ key ≠ R.erasedKey

namespace InsertPc

/-- The call has claimed the slot. -/
def Owns (c : R.Call) (slot : ℕ) : InsertPc K V → Prop
  | attempt j rank i _ pc => R.slotAt c.key j rank i = slot ∧ pc.won
  | wait slot' inserted => slot' = slot ∧ inserted = true
  | done slot' inserted => slot' = some slot ∧ inserted = true
  | _ => False

/-- The call relies on the payload of the slot. -/
def Pins (c : R.Call) (slot : ℕ) : InsertPc K V → Prop
  | attempt j rank i _ (.retract _) => R.slotAt c.key j rank i = slot
  | attempt j rank i _ .storePayload => R.slotAt c.key j rank i = slot
  | wait slot' inserted => slot' = slot ∧ inserted = true
  | done slot' inserted => slot' = some slot ∧ inserted = true
  | _ => False

end InsertPc

/-- What a call knows of the slot it is claiming. -/
def CasInv (c : R.Call) (cas : Cas) (expected slot : K × V) : CasPc K → Prop
  | .start => expected.1 = R.emptyKey ∧ (cas = .packed → expected = R.emptySlot)
  | .payloadCas true _ => cas = .backToBack ∧ slot.1 = c.key
  | .payloadCas false actual => cas = .backToBack ∧ slot.1 = actual ∧ R.IsKey actual
  | .spin => cas = .backToBack ∧ slot.1 = c.key
  | .retract actual => cas = .backToBack ∧ slot = (actual, c.payload) ∧ R.IsKey actual
  | .storePayload => cas = .dependentWrite ∧ slot = (c.key, R.emptyValue)

/-- What a call knows of the table. -/
def PcInv (op : Op) (storage : Storage) (c : R.Call) (slots : Slots K V) : InsertPc K V → Prop
  | .probe j lanes => j < R.numGroups ∧ R.Passed slots c.key (j * R.stride) ∧
      ∀ rank < R.cgSize, R.LaneInv slots c.key j rank (lanes rank) ∧
        ∀ i seen, lanes rank = .hit i .available seen → seen = R.emptySlot
  | .copy j i => op = .insert ∧ c.form = .scalar ∧ j < R.numGroups ∧ i < R.bucketSize ∧
      R.Passed slots c.key (j * R.stride + i)
  | .attempt j rank i expected pc => j < R.numGroups ∧ rank < R.cgSize ∧ i < R.bucketSize ∧
      R.Passed slots c.key (j * R.stride + rank * R.bucketSize + i) ∧
      CasInv c (op.cas storage) expected (slots (R.slotAt c.key j rank i)) pc
  | .wait slot true => slot < R.capacity ∧ slots slot = (c.key, c.payload)
  | .wait slot false => slot < R.capacity ∧ R.Holds slots c.key slot ∧ op = .insertAndFind
  | .done (some slot) true => slot < R.capacity ∧ slots slot = (c.key, c.payload)
  | .done (some slot) false => slot < R.capacity ∧ R.Holds slots c.key slot ∧
      (op = .insertAndFind → (slots slot).2 ≠ R.emptyValue)
  | .done none inserted => inserted = false ∧ R.Passed slots c.key R.capacity

theorem MapRef.Call.isKey (c : R.Call) : R.IsKey c.key :=
  ⟨c.key_ne_empty, c.key_ne_erased⟩

theorem Op.cas_insertAndFind (storage : Storage) : Op.insertAndFind.cas storage ≠ .backToBack := by
  rw [Op.cas]
  split <;> simp

section Frame

variable {op : Op} {storage : Storage} {c : R.Call} {slots slots' : Slots K V} {pc : InsertPc K V}

/-- **What others do does not concern a call**, as long as no key is taken out, the payloads it relies
on stay, and no payload that could have been read is taken out. -/
theorem PcInv.frame (h : PcInv op storage c slots pc) (hkeeps : R.Keeps slots slots')
    (hpins : ∀ slot, pc.Pins c slot → slots' slot = slots slot)
    (hread : op = .insertAndFind → ∀ slot, R.Occupied slots slot →
      (slots slot).2 ≠ R.emptyValue → (slots' slot).2 ≠ R.emptyValue) :
    PcInv op storage c slots' pc := by
  cases pc with
  | probe j lanes =>
    refine ⟨h.1, hkeeps.passed h.2.1, fun rank hrank => ?_⟩
    exact ⟨(h.2.2 rank hrank).1.keeps hkeeps, (h.2.2 rank hrank).2⟩
  | copy j i => exact ⟨h.1, h.2.1, h.2.2.1, h.2.2.2.1, hkeeps.passed h.2.2.2.2⟩
  | attempt j rank i expected pc =>
    obtain ⟨hj, hrank, hi, hpassed, hcas⟩ := h
    refine ⟨hj, hrank, hi, hkeeps.passed hpassed, ?_⟩
    have hkey : ∀ {x}, (slots (R.slotAt c.key j rank i)).1 = x → R.IsKey x →
        (slots' (R.slotAt c.key j rank i)).1 = x := by
      rintro x rfl hx
      exact hkeeps _ hx
    cases pc with
    | start => exact hcas
    | payloadCas keyCasSuccess actual =>
      cases keyCasSuccess with
      | true => exact ⟨hcas.1, hkey hcas.2 c.isKey⟩
      | false => exact ⟨hcas.1, hkey hcas.2.1 hcas.2.2, hcas.2.2⟩
    | spin => exact ⟨hcas.1, hkey hcas.2 c.isKey⟩
    | retract actual =>
      refine ⟨hcas.1, ?_, hcas.2.2⟩
      rw [hpins _ rfl]
      exact hcas.2.1
    | storePayload =>
      refine ⟨hcas.1, ?_⟩
      rw [hpins _ rfl]
      exact hcas.2
  | wait slot inserted =>
    cases inserted with
    | true =>
      refine ⟨h.1, ?_⟩
      rw [hpins slot ⟨rfl, rfl⟩]
      exact h.2
    | false => exact ⟨h.1, hkeeps.holds h.2.1, h.2.2⟩
  | done slot inserted =>
    cases slot with
    | none => exact ⟨h.1, hkeeps.passed h.2⟩
    | some slot =>
      cases inserted with
      | true =>
        refine ⟨h.1, ?_⟩
        rw [hpins slot ⟨rfl, rfl⟩]
        exact h.2
      | false =>
        exact ⟨h.1, hkeeps.holds h.2.1, fun hop => hread hop slot h.2.1.1 (h.2.2 hop)⟩

theorem PcInv.occupied_of_pins (h : PcInv op storage c slots pc) {slot : ℕ} (hp : pc.Pins c slot) :
    R.Occupied slots slot := by
  cases pc with
  | probe j lanes => exact hp.elim
  | copy j i => exact hp.elim
  | attempt j rank i expected pc =>
    have hcas := h.2.2.2.2
    cases pc with
    | retract actual =>
      obtain rfl : R.slotAt c.key j rank i = slot := hp
      have hslot := hcas.2.1
      unfold MapRef.Occupied
      rw [hslot]
      exact hcas.2.2
    | storePayload =>
      obtain rfl : R.slotAt c.key j rank i = slot := hp
      have hslot := hcas.2
      unfold MapRef.Occupied
      rw [hslot]
      exact c.isKey
    | start => exact hp.elim
    | payloadCas keyCasSuccess actual => exact hp.elim
    | spin => exact hp.elim
  | wait slot' inserted =>
    obtain ⟨rfl, rfl⟩ := hp
    unfold MapRef.Occupied
    rw [h.2]
    exact c.isKey
  | done slot' inserted =>
    obtain ⟨rfl, rfl⟩ := hp
    unfold MapRef.Occupied
    rw [h.2]
    exact c.isKey

/-- A call relies on its own payload, unless it is about to write it. -/
theorem PcInv.payload_of_pins (h : PcInv op storage c slots pc) {slot : ℕ} (hp : pc.Pins c slot)
    (hcas : op.cas storage ≠ .dependentWrite) : (slots slot).2 = c.payload := by
  cases pc with
  | probe j lanes => exact hp.elim
  | copy j i => exact hp.elim
  | attempt j rank i expected pc =>
    cases pc with
    | retract actual =>
      obtain rfl : R.slotAt c.key j rank i = slot := hp
      rw [h.2.2.2.2.2.1]
    | storePayload => exact absurd h.2.2.2.2.1 hcas
    | start => exact hp.elim
    | payloadCas keyCasSuccess actual => exact hp.elim
    | spin => exact hp.elim
  | wait slot' inserted =>
    obtain ⟨rfl, rfl⟩ := hp
    rw [h.2]
  | done slot' inserted =>
    obtain ⟨rfl, rfl⟩ := hp
    rw [h.2]

theorem PcInv.settle_false {slot : ℕ} (hslot : slot < R.capacity)
    (h : R.Holds slots c.key slot) : PcInv op storage c slots (MapRef.settle op slot false) := by
  cases op with
  | insert => exact ⟨hslot, h, by simp⟩
  | insertAndFind => exact ⟨hslot, h, rfl⟩

theorem PcInv.settle_true {slot : ℕ} (hslot : slot < R.capacity)
    (h : slots slot = (c.key, c.payload)) :
    PcInv op storage c slots (MapRef.settle op slot true) := by
  cases op with
  | insert => exact ⟨hslot, h⟩
  | insertAndFind => exact ⟨hslot, h⟩

theorem not_pins_settle_false {slot slot' : ℕ} :
    ¬ (MapRef.settle op slot false : InsertPc K V).Pins c slot' := by
  cases op <;> simp [MapRef.settle, InsertPc.Pins]

theorem pins_settle_true {slot slot' : ℕ} :
    (MapRef.settle op slot true : InsertPc K V).Pins c slot' ↔ slot = slot' := by
  cases op <;> simp [MapRef.settle, InsertPc.Pins]

theorem owns_settle_true {slot slot' : ℕ} :
    (MapRef.settle op slot true : InsertPc K V).Owns c slot' ↔ slot = slot' := by
  cases op <;> simp [MapRef.settle, InsertPc.Owns]

theorem not_pins_ballot {j : ℕ} {lanes : ℕ → Lane K V} {slot : ℕ} :
    ¬ (MapRef.ballot op c j lanes).Pins c slot := by
  unfold MapRef.ballot
  split
  · exact not_pins_settle_false
  split
  · split <;> exact id
  · split <;> simp [InsertPc.Pins]

end Frame

/-! ## 2. The invariant -/

/-- A table without erased slots: the keys are well placed, the empty slots are as they were
initialized, and no stored payload is the sentinel. -/
structure MapRef.Clean (R : MapRef K V) (slots : Slots K V) : Prop where
  placed : R.WellPlaced slots
  free : ∀ slot < R.capacity, ¬ R.Occupied slots slot → slots slot = R.emptySlot
  stored : ∀ slot < R.capacity, R.Occupied slots slot → (slots slot).2 ≠ R.emptyValue

/-- What holds in every state of the calls on a table. -/
structure InsertInv {ι : Type*} (op : Op) (storage : Storage) (calls : ι → R.Call)
    (start : Slots K V) (s : InsertState K V ι) : Prop where
  placed : R.WellPlaced s.slots
  free : ∀ slot < R.capacity, ¬ R.Occupied s.slots slot → s.slots slot = R.emptySlot
  old : ∀ slot < R.capacity, R.Occupied start slot → s.slots slot = start slot
  stored : op.cas storage = .packed → ∀ slot < R.capacity, R.Occupied s.slots slot →
    (s.slots slot).2 ≠ R.emptyValue
  pcs : ∀ c, PcInv op storage (calls c) s.slots (s.pc c)
  owner : ∀ slot < R.capacity, R.Occupied s.slots slot →
    R.Occupied start slot ∨ ∃ c, (s.pc c).Owns (calls c) slot
  pins_unique : ∀ {c c' slot}, (s.pc c).Pins (calls c) slot → (s.pc c').Pins (calls c') slot → c = c'
  pins_new : ∀ {c slot}, (s.pc c).Pins (calls c) slot → ¬ R.Occupied start slot

section Invariant

variable {ι : Type*} [DecidableEq ι] {op : Op} {storage : Storage} {calls : ι → R.Call}
  {start : Slots K V} {s : InsertState K V ι}

theorem InsertInv.move (h : InsertInv op storage calls start s) (c : ι) {pc' : InsertPc K V}
    (hpc : PcInv op storage (calls c) s.slots pc')
    (howns : ∀ slot, (s.pc c).Owns (calls c) slot → pc'.Owns (calls c) slot)
    (hpins : ∀ slot, pc'.Pins (calls c) slot → (s.pc c).Pins (calls c) slot) :
    InsertInv op storage calls start ⟨s.slots, Function.update s.pc c pc'⟩ := by
  have hback : ∀ {c' slot}, (Function.update s.pc c pc' c').Pins (calls c') slot →
      (s.pc c').Pins (calls c') slot := by
    intro c' slot hp
    rcases eq_or_ne c' c with rfl | hne
    · rw [Function.update_self] at hp
      exact hpins slot hp
    · rwa [Function.update_of_ne hne] at hp
  refine ⟨h.placed, h.free, h.old, h.stored, fun c' => ?_, fun slot hslot hocc => ?_,
    fun hp hp' => h.pins_unique (hback hp) (hback hp'), fun hp => h.pins_new (hback hp)⟩
  · rcases eq_or_ne c' c with rfl | hne
    · simpa only [Function.update_self] using hpc
    · simpa only [Function.update_of_ne hne] using h.pcs c'
  · refine (h.owner slot hslot hocc).imp_right fun ⟨c', hc'⟩ => ⟨c', ?_⟩
    rcases eq_or_ne c' c with rfl | hne
    · simpa only [Function.update_self] using howns slot hc'
    · simpa only [Function.update_of_ne hne] using hc'

/-- **A step of a call that writes a slot**: the slot then holds a key, the one it held if it held
one, and no other call relies on its payload. -/
theorem InsertInv.write (h : InsertInv op storage calls start s) (c : ι) {pc' : InsertPc K V}
    {slot : ℕ} {x : K × V} (hplaced : R.WellPlaced (Function.update s.slots slot x))
    (hkey : R.IsKey x.1) (hsame : R.Occupied s.slots slot → x.1 = (s.slots slot).1)
    (hnew : ¬ R.Occupied start slot) (hstored : op.cas storage = .packed → x.2 ≠ R.emptyValue)
    (hread : op = .insertAndFind → x.2 = R.emptyValue → (s.slots slot).2 = R.emptyValue)
    (hothers : ∀ c' ≠ c, ¬ (s.pc c').Pins (calls c') slot)
    (hpc : PcInv op storage (calls c) (Function.update s.slots slot x) pc')
    (howns : ∀ slot', (s.pc c).Owns (calls c) slot' → pc'.Owns (calls c) slot')
    (hclaim : ¬ R.Occupied s.slots slot → pc'.Owns (calls c) slot)
    (hpins : ∀ slot', pc'.Pins (calls c) slot' → slot' = slot) :
    InsertInv op storage calls start
      ⟨Function.update s.slots slot x, Function.update s.pc c pc'⟩ := by
  have hkeeps := MapRef.keeps_update hsame
  have hocc : R.Occupied (Function.update s.slots slot x) slot := by
    unfold MapRef.Occupied
    rw [Function.update_self]
    exact hkey
  have hback : ∀ {slot'}, slot' ≠ slot → R.Occupied (Function.update s.slots slot x) slot' →
      R.Occupied s.slots slot' := by
    intro slot' hne ho
    unfold MapRef.Occupied at ho ⊢
    rwa [Function.update_of_ne hne] at ho
  refine ⟨hplaced, fun slot' hslot' hfree => ?_, fun slot' hslot' hold => ?_,
    fun hcas slot' hslot' ho => ?_, fun c' => ?_, fun slot' hslot' ho => ?_,
    fun {c₁ c₂ slot'} hp hp' => ?_, fun {c' slot'} hp => ?_⟩
  · rcases eq_or_ne slot' slot with rfl | hne
    · exact absurd hocc hfree
    · simp only [Function.update_of_ne hne]
      exact h.free slot' hslot' fun ho => hfree (hkeeps.occupied ho)
  · rcases eq_or_ne slot' slot with rfl | hne
    · exact absurd hold hnew
    · simp only [Function.update_of_ne hne]
      exact h.old slot' hslot' hold
  · rcases eq_or_ne slot' slot with rfl | hne
    · simp only [Function.update_self]
      exact hstored hcas
    · simp only [Function.update_of_ne hne]
      exact h.stored hcas slot' hslot' (hback hne ho)
  · rcases eq_or_ne c' c with rfl | hne
    · simpa only [Function.update_self] using hpc
    simp only [Function.update_of_ne hne]
    refine (h.pcs c').frame hkeeps (fun slot' hp => ?_) fun hop slot' ho hval => ?_
    · rcases eq_or_ne slot' slot with rfl | hne'
      · exact absurd hp (hothers c' hne)
      · exact Function.update_of_ne hne' _ _
    · rcases eq_or_ne slot' slot with rfl | hne'
      · rw [Function.update_self]
        exact fun hx => hval (hread hop hx)
      · rwa [Function.update_of_ne hne']
  · rcases eq_or_ne slot' slot with rfl | hne
    · rcases Classical.em (R.Occupied s.slots slot') with ho' | hfree
      · refine (h.owner slot' hslot' ho').imp_right fun ⟨c', hc'⟩ => ⟨c', ?_⟩
        rcases eq_or_ne c' c with rfl | hne'
        · simp only [Function.update_self]
          exact howns slot' hc'
        · simpa only [Function.update_of_ne hne'] using hc'
      · refine Or.inr ⟨c, ?_⟩
        simp only [Function.update_self]
        exact hclaim hfree
    · refine (h.owner slot' hslot' (hback hne ho)).imp_right fun ⟨c', hc'⟩ => ⟨c', ?_⟩
      rcases eq_or_ne c' c with rfl | hne'
      · simp only [Function.update_self]
        exact howns slot' hc'
      · simpa only [Function.update_of_ne hne'] using hc'
  · rcases eq_or_ne c₁ c with h₁ | h₁ <;> rcases eq_or_ne c₂ c with h₂ | h₂
    · rw [h₁, h₂]
    · rw [h₁] at hp
      simp only [Function.update_self, Function.update_of_ne h₂] at hp hp'
      rw [hpins slot' hp] at hp'
      exact absurd hp' (hothers c₂ h₂)
    · rw [h₂] at hp'
      simp only [Function.update_self, Function.update_of_ne h₁] at hp hp'
      rw [hpins slot' hp'] at hp
      exact absurd hp (hothers c₁ h₁)
    · simp only [Function.update_of_ne h₁, Function.update_of_ne h₂] at hp hp'
      exact h.pins_unique hp hp'
  · rcases eq_or_ne c' c with rfl | hne
    · simp only [Function.update_self] at hp
      rw [hpins slot' hp]
      exact hnew
    · simp only [Function.update_of_ne hne] at hp
      exact h.pins_new hp

/-! ## 3. Steps that leave the table as it is -/

theorem InsertInv.read [DecidableEq K] (h : InsertInv op storage calls start s) {c : ι} {j rank : ℕ}
    {lanes : ℕ → Lane K V} {lane : Lane K V} (hpc : s.pc c = .probe j lanes)
    (hrank : rank < R.cgSize)
    (hread : (lanes rank).read (R.insertPredicate (calls c).key)
      (fun i => s.slots (R.slotAt (calls c).key j rank i)) R.bucketSize = some lane) :
    InsertInv op storage calls start
      ⟨s.slots, Function.update s.pc c (.probe j (Function.update lanes rank lane))⟩ := by
  have hinv := h.pcs c
  rw [hpc] at hinv
  obtain ⟨hj, hpassed, hlanes⟩ := hinv
  refine h.move c ⟨hj, hpassed, fun rank' hrank' => ?_⟩ (fun slot ho => ?_) (fun slot hp => hp.elim)
  · rcases eq_or_ne rank' rank with rfl | hne
    · rw [Function.update_self]
      refine ⟨(hlanes rank' hrank').1.read hread, fun i seen hseen => ?_⟩
      obtain ⟨hi, hseen', hstate⟩ := Lane.read_eq_hit (hseen ▸ hread)
      rcases MapRef.insertPredicate_spec s.slots (calls c).key
        (R.slotAt (calls c).key j rank' i) with hst | hst | hst
      · rw [hseen']
        refine h.free _ ?_ hst.2
        rw [R.slotAt_eq hrank' hi]
        exact R.probe_lt _ _
      · rw [hst.1] at hstate
        exact absurd hstate (by simp)
      · rw [hst.1] at hstate
        exact absurd hstate (by simp)
    · rw [Function.update_of_ne hne]
      exact hlanes rank' hrank'
  · rw [hpc] at ho
    exact ho.elim

theorem InsertInv.ballot (h : InsertInv op storage calls start s) {c : ι} {j : ℕ}
    {lanes : ℕ → Lane K V} (hpc : s.pc c = .probe j lanes)
    (hfinished : ∀ rank < R.cgSize, (lanes rank).isFinished R.bucketSize = true) :
    InsertInv op storage calls start
      ⟨s.slots, Function.update s.pc c (MapRef.ballot op (calls c) j lanes)⟩ := by
  have hinv := h.pcs c
  rw [hpc] at hinv
  obtain ⟨hj, hpassed, hlanes⟩ := hinv
  have hlanes' : ∀ rank < R.cgSize, R.LaneInv s.slots (calls c).key j rank (lanes rank) :=
    fun rank hrank => (hlanes rank hrank).1
  have howns : ∀ slot, ¬ (s.pc c).Owns (calls c) slot := by
    rw [hpc]
    exact fun _ ho => ho
  refine h.move c ?_ (fun slot ho => absurd ho (howns slot))
    fun slot hp => absurd hp not_pins_ballot
  · unfold MapRef.ballot
    split
    · -- a lane has found the key
      rename_i rank i seen hequal
      obtain ⟨hrank, hhit, -⟩ := firstLane_spec hequal
      have hlane := hlanes' rank hrank
      rw [hhit] at hlane
      obtain ⟨hi, -, ⟨-, hholds⟩ | ⟨hno, -⟩⟩ := hlane
      · have hlt : R.slotAt (calls c).key j rank i < R.capacity := by
          rw [R.slotAt_eq hrank hi]
          exact R.probe_lt _ _
        exact .settle_false hlt hholds
      · exact absurd hno (by simp)
    rename_i hequal
    split
    · rename_i rank i seen havailable
      obtain ⟨hrank, hi, hbefore, -⟩ :=
        MapRef.passed_of_available hpassed hlanes' hfinished hequal havailable
      have hseen := (hlanes rank hrank).2 i seen (firstLane_spec havailable).2.1
      split
      · rename_i hform
        refine ⟨rfl, hform, hj, hi, ?_⟩
        have hzero : rank = 0 := by
          have := (calls c).cgSize_eq hform
          omega
        rwa [hzero, Nat.zero_mul, Nat.add_zero] at hbefore
      · exact ⟨hj, hrank, hi, hbefore, rfl, fun _ => rfl⟩
      · exact ⟨hj, hrank, hi, hbefore, by rw [hseen]; rfl, fun _ => hseen⟩
    · rename_i havailable
      have hnext := MapRef.passed_of_none hpassed hlanes' hfinished hequal havailable
      split
      · rename_i hwrap
        rw [R.iterator_wraps R.cgSize_pos _ (by omega) (by omega)] at hwrap
        rw [hwrap, ← R.capacity_eq] at hnext
        exact ⟨rfl, hnext⟩
      · rename_i hwrap
        rw [R.iterator_wraps R.cgSize_pos _ (by omega) (by omega)] at hwrap
        exact ⟨by omega, hnext, fun rank _ => ⟨.start _ _ _ _, by simp⟩⟩

theorem InsertInv.copy (h : InsertInv op storage calls start s) {c : ι} {j i : ℕ}
    (hpc : s.pc c = .copy j i)
    (hempty : (s.slots (R.slotAt (calls c).key j 0 i)).1 = R.emptyKey) :
    InsertInv op storage calls start ⟨s.slots, Function.update s.pc c
      (.attempt j 0 i (s.slots (R.slotAt (calls c).key j 0 i)) .start)⟩ := by
  have hinv := h.pcs c
  rw [hpc] at hinv
  obtain ⟨-, -, hj, hi, hpassed⟩ := hinv
  refine h.move c ?_ (fun slot ho => ?_) fun slot hp => hp.elim
  · refine ⟨hj, R.cgSize_pos, hi, by rwa [Nat.zero_mul, Nat.add_zero], hempty, fun _ => ?_⟩
    refine h.free _ ?_ fun ho => ho.1 hempty
    rw [R.slotAt_eq R.cgSize_pos hi]
    exact R.probe_lt _ _
  · rw [hpc] at ho
    exact ho.elim

theorem Op.cas_of_aligned (op : Op) {storage : Storage} (h : storage.isPackedCasAligned = true) :
    op.cas storage = .packed := by
  cases op <;> simp [Op.cas, h]

theorem InsertInv.wait [DecidableEq V] (h : InsertInv op storage calls start s) {c : ι} {slot : ℕ}
    {inserted : Bool} (hpc : s.pc c = .wait slot inserted) :
    InsertInv op storage calls start ⟨s.slots, Function.update s.pc c
      (if MapRef.waitsForPayload storage ∧ (s.slots slot).2 = R.emptyValue
        then .wait slot inserted else .done (some slot) inserted)⟩ := by
  have hinv := h.pcs c
  rw [hpc] at hinv
  split
  · refine h.move c hinv (fun slot' ho => ?_) fun slot' hp => ?_
    · rwa [hpc] at ho
    · rwa [hpc]
  rename_i hdone
  refine h.move c ?_ (fun slot' ho => ?_) fun slot' hp => ?_
  · cases inserted with
    | true => exact hinv
    | false =>
      refine ⟨hinv.1, hinv.2.1, fun _ hval => ?_⟩
      cases haligned : storage.isPackedCasAligned with
      | true => exact h.stored (op.cas_of_aligned haligned) slot hinv.1 hinv.2.1.1 hval
      | false => exact hdone ⟨by simp [MapRef.waitsForPayload, haligned], hval⟩
  · rw [hpc] at ho
    exact ⟨by rw [ho.1], ho.2⟩
  · rw [hpc]
    exact ⟨Option.some.inj hp.1, hp.2⟩

/-! ## 4. Claims -/

/-- A call that has found a key in the slot it meant to claim goes on, or has found its key. -/
theorem PcInv.afterAttempt_lost {c : R.Call} {slots : Slots K V} {j rank i : ℕ}
    (hj : j < R.numGroups) (hrank : rank < R.cgSize) (hi : i < R.bucketSize)
    (hpassed : R.Passed slots c.key (j * R.stride + rank * R.bucketSize + i))
    (hkey : R.Occupied slots (R.slotAt c.key j rank i)) :
    PcInv op storage c slots (MapRef.afterAttempt op c j rank i
      (R.lostTo c.key (slots (R.slotAt c.key j rank i)).1)) := by
  unfold MapRef.lostTo MapRef.equalTo
  cases hequal : R.keyEqual c.key (slots (R.slotAt c.key j rank i)).1 with
  | true =>
    simp only [if_true]
    refine .settle_false ?_ ⟨hkey, hequal⟩
    rw [R.slotAt_eq hrank hi]
    exact R.probe_lt _ _
  | false =>
    simp only [Bool.false_eq_true, if_false, reduceCtorEq, MapRef.afterAttempt]
    have hbefore : R.Passed slots c.key (j * R.stride) := fun q hq => hpassed q (by omega)
    split
    · -- a single thread goes on with the next slot
      rename_i hform
      have hone := c.cgSize_eq hform
      refine ⟨hj, hbefore, fun rank' hrank' => ⟨⟨hi, fun t ht => ?_⟩, by simp⟩⟩
      obtain rfl : rank' = rank := by omega
      rcases Nat.lt_succ_iff_lt_or_eq.mp ht with hlt | rfl
      · rw [R.slotAt_eq hrank (by omega)]
        exact hpassed _ (by omega)
      · exact ⟨hkey, hequal⟩
    · exact ⟨hj, hbefore, fun rank' _ => ⟨.start _ _ _ _, by simp⟩⟩

theorem not_pins_afterAttempt_lost {c : R.Call} {j rank i slot : ℕ} {actual : K} :
    ¬ (MapRef.afterAttempt op c j rank i (R.lostTo c.key actual)).Pins c slot := by
  unfold MapRef.lostTo
  split
  · exact not_pins_settle_false
  · unfold MapRef.afterAttempt
    cases c.form <;> exact id

/-- The state of a call that has found a key in the slot it meant to claim, the table being as it
was. -/
theorem InsertInv.lost (h : InsertInv op storage calls start s) {c : ι} {j rank i : ℕ}
    {expected : K × V} {pc : CasPc K} (hpc : s.pc c = .attempt j rank i expected pc)
    (hwon : ¬ pc.won)
    (hkey : R.Occupied s.slots (R.slotAt (calls c).key j rank i)) :
    InsertInv op storage calls start ⟨s.slots, Function.update s.pc c
      (MapRef.afterAttempt op (calls c) j rank i
        (R.lostTo (calls c).key (s.slots (R.slotAt (calls c).key j rank i)).1))⟩ := by
  have hinv := h.pcs c
  rw [hpc] at hinv
  obtain ⟨hj, hrank, hi, hpassed, -⟩ := hinv
  refine h.move c (.afterAttempt_lost hj hrank hi hpassed hkey) (fun slot ho => ?_)
    fun slot hp => absurd hp not_pins_afterAttempt_lost
  rw [hpc] at ho
  exact absurd ho.2 hwon

theorem InsertInv.claim (h : InsertInv op storage calls start s) {c : ι} {j rank i : ℕ}
    {expected : K × V} (hpc : s.pc c = .attempt j rank i expected .start)
    (hempty : (s.slots (R.slotAt (calls c).key j rank i)).1 = R.emptyKey) {v : V}
    (hv : op.cas storage = .packed → v ≠ R.emptyValue) {pc' : InsertPc K V}
    (hpc' : PcInv op storage (calls c) (Function.update s.slots
      (R.slotAt (calls c).key j rank i) ((calls c).key, v)) pc')
    (howns : pc'.Owns (calls c) (R.slotAt (calls c).key j rank i))
    (hpins : ∀ slot, pc'.Pins (calls c) slot → slot = R.slotAt (calls c).key j rank i) :
    InsertInv op storage calls start
      ⟨Function.update s.slots (R.slotAt (calls c).key j rank i) ((calls c).key, v),
        Function.update s.pc c pc'⟩ := by
  have hinv := h.pcs c
  rw [hpc] at hinv
  obtain ⟨hj, hrank, hi, hpassed, -⟩ := hinv
  have hslot := R.slotAt_eq hrank hi (calls c).key j
  have hp := R.position_lt hj hrank hi
  have hlt : R.slotAt (calls c).key j rank i < R.capacity := hslot ▸ R.probe_lt _ _
  have hfree : ¬ R.Occupied s.slots (R.slotAt (calls c).key j rank i) := fun ho => ho.1 hempty
  refine h.write c ?_ (calls c).isKey (fun ho => absurd ho hfree) (fun hold => ?_) hv
    (fun _ _ => ?_) (fun c' _ hpin => ?_) hpc' (fun slot ho => ?_) (fun _ => howns) hpins
  · rw [hslot] at hempty hfree ⊢
    exact h.placed.claim hp hpassed hfree (h.placed.absent_of_empty hp hpassed hempty)
      (calls c).key_ne_empty v
  · have hsame := h.old _ hlt hold
    unfold MapRef.Occupied at hold
    rw [← hsame] at hold
    exact hfree hold
  · rw [h.free _ hlt hfree, MapRef.emptySlot]
  · exact hfree ((h.pcs c').occupied_of_pins hpin)
  · rw [hpc] at ho
    exact ho.2.elim

theorem InsertInv.put (h : InsertInv op storage calls start s) {c : ι} {slot : ℕ}
    (hocc : R.Occupied s.slots slot) (hnew : ¬ R.Occupied start slot) {v : V}
    (hv : op.cas storage = .packed → v ≠ R.emptyValue)
    (hread : op = .insertAndFind → v = R.emptyValue → (s.slots slot).2 = R.emptyValue)
    (hothers : ∀ c' ≠ c, ¬ (s.pc c').Pins (calls c') slot) {pc' : InsertPc K V}
    (hpc' : PcInv op storage (calls c)
      (Function.update s.slots slot ((s.slots slot).1, v)) pc')
    (howns : ∀ slot', (s.pc c).Owns (calls c) slot' → pc'.Owns (calls c) slot')
    (hpins : ∀ slot', pc'.Pins (calls c) slot' → slot' = slot) :
    InsertInv op storage calls start
      ⟨Function.update s.slots slot ((s.slots slot).1, v), Function.update s.pc c pc'⟩ := by
  refine h.write c ?_ hocc (fun _ => rfl) hnew hv hread hothers hpc' howns
    (fun hfree => absurd hocc hfree) hpins
  refine h.placed.congr fun slot' => ?_
  rcases eq_or_ne slot' slot with rfl | hne
  · rw [Function.update_self]
  · rw [Function.update_of_ne hne]

omit [DecidableEq ι] in
/-- With `back_to_back_cas` nobody relies on the payload of a slot that holds the sentinel. -/
theorem InsertInv.not_pins_of_emptyValue (h : InsertInv op storage calls start s)
    (hcas : op.cas storage = .backToBack) {slot : ℕ}
    (hval : (s.slots slot).2 = R.emptyValue) (c : ι) : ¬ (s.pc c).Pins (calls c) slot := by
  intro hpin
  have := (h.pcs c).payload_of_pins hpin (by rw [hcas]; simp)
  rw [hval] at this
  exact (calls c).payload_ne_empty this.symm

omit [DecidableEq ι] in
/-- A slot with the sentinel for a payload was not there from the beginning. -/
theorem InsertInv.new_of_emptyValue (h : InsertInv op storage calls start s) (hstart : R.Clean start)
    {slot : ℕ} (hslot : slot < R.capacity) (hval : (s.slots slot).2 = R.emptyValue) :
    ¬ R.Occupied start slot := by
  intro hold
  rw [h.old slot hslot hold] at hval
  exact hstart.stored slot hslot hold hval

theorem InsertInv.finish (h : InsertInv op storage calls start s) (hstart : R.Clean start) {c : ι}
    {j rank i : ℕ} {expected : K × V} {pc : CasPc K}
    (hpc : s.pc c = .attempt j rank i expected pc) (hcas : op.cas storage ≠ .packed)
    (hkey : (s.slots (R.slotAt (calls c).key j rank i)).1 = (calls c).key)
    (hval : (s.slots (R.slotAt (calls c).key j rank i)).2 = R.emptyValue)
    (hothers : ∀ c' ≠ c, ¬ (s.pc c').Pins (calls c') (R.slotAt (calls c).key j rank i)) :
    InsertInv op storage calls start
      ⟨Function.update s.slots (R.slotAt (calls c).key j rank i)
        ((s.slots (R.slotAt (calls c).key j rank i)).1, (calls c).payload),
        Function.update s.pc c (MapRef.settle op (R.slotAt (calls c).key j rank i) true)⟩ := by
  have hinv := h.pcs c
  rw [hpc] at hinv
  obtain ⟨-, hrank, hi, -, -⟩ := hinv
  have hlt : R.slotAt (calls c).key j rank i < R.capacity := by
    rw [R.slotAt_eq hrank hi]
    exact R.probe_lt _ _
  have hocc : R.Occupied s.slots (R.slotAt (calls c).key j rank i) := by
    unfold MapRef.Occupied
    rw [hkey]
    exact (calls c).isKey
  refine h.put hocc (h.new_of_emptyValue hstart hlt hval) (fun hp => absurd hp hcas)
    (fun _ _ => hval) hothers (.settle_true hlt ?_) (fun slot ho => ?_)
    fun slot hp => (pins_settle_true.mp hp).symm
  · rw [Function.update_self, hkey]
  · rw [hpc] at ho
    exact owns_settle_true.mpr ho.1

variable [DecidableEq K] [DecidableEq V]

/-- **A step of a claim keeps the invariant.** -/
theorem InsertInv.attempt (h : InsertInv op storage calls start s) (hstart : R.Clean start) {c : ι}
    {j rank i : ℕ} {expected : K × V} {pc : CasPc K}
    (hpc : s.pc c = .attempt j rank i expected pc) {slots' : Slots K V} {pc' : InsertPc K V}
    (hstep : MapRef.callStep op storage (calls c) s.slots (.attempt j rank i expected pc) .go =
      some (slots', pc')) :
    InsertInv op storage calls start ⟨slots', Function.update s.pc c pc'⟩ := by
  have hinv := h.pcs c
  rw [hpc] at hinv
  obtain ⟨hj, hrank, hi, hpassed, hcas⟩ := hinv
  simp only [MapRef.callStep, Option.some.injEq, Prod.mk.injEq] at hstep
  obtain ⟨rfl, rfl⟩ := hstep
  set slot := R.slotAt (calls c).key j rank i with hslot
  have hlt : slot < R.capacity := by
    rw [hslot, R.slotAt_eq hrank hi]
    exact R.probe_lt _ _
  have hself : Function.update s.slots slot (s.slots slot) = s.slots := Function.update_eq_self _ _
  -- a slot that is not empty holds a key
  have hoccupied : (s.slots slot).1 ≠ R.emptyKey → R.Occupied s.slots slot := by
    intro hne
    by_contra hfree
    rw [h.free slot hlt hfree] at hne
    exact hne rfl
  have hvalue : (s.slots slot).1 = R.emptyKey → s.slots slot = R.emptySlot := fun hempty =>
    h.free slot hlt fun ho => ho.1 hempty
  have hpassed' : ∀ x : K × V, (R.Occupied s.slots slot → x.1 = (s.slots slot).1) →
      R.Passed (Function.update s.slots slot x) (calls c).key
        (j * R.stride + rank * R.bucketSize + i) :=
    fun x hx => (MapRef.keeps_update hx).passed hpassed
  have hfree : (s.slots slot).1 = R.emptyKey → ¬ R.Occupied s.slots slot := fun hempty ho =>
    ho.1 hempty
  cases pc with
  | start =>
    obtain ⟨hexp, hexp'⟩ := hcas
    cases hprotocol : op.cas storage with
    | packed =>
      simp only [MapRef.casStep]
      split
      · rename_i hsame
        refine h.claim hpc ?_ (fun _ => (calls c).payload_ne_empty) (.settle_true hlt ?_)
          (owns_settle_true.mpr rfl) fun slot' hp => (pins_settle_true.mp hp).symm
        · rw [← hslot, hsame, hexp]
        · rw [← hslot, Function.update_self]
      · rename_i hdiff
        simp only [hself]
        refine h.lost hpc (fun hw => hw) (hoccupied fun hempty => hdiff ?_)
        rw [hexp' hprotocol, hvalue hempty]
    | backToBack =>
      simp only [MapRef.casStep]
      split
      · rename_i hsame
        rw [hexp] at hsame
        refine h.claim hpc hsame (fun hp => ?_) ⟨hj, hrank, hi, hpassed' _ fun ho =>
          absurd ho (hfree hsame), hprotocol, ?_⟩ ⟨rfl, rfl⟩ fun slot' hp => hp.elim
        · rw [hprotocol] at hp
          exact absurd hp (by simp)
        · rw [← hslot, Function.update_self]
      · rename_i hdiff
        rw [hexp] at hdiff
        simp only [hself]
        refine h.move c ⟨hj, hrank, hi, hpassed, hprotocol, rfl, hoccupied hdiff⟩ (fun slot' ho => ?_)
          fun slot' hp => hp.elim
        rw [hpc] at ho
        exact ho.2.elim
    | dependentWrite =>
      simp only [MapRef.casStep]
      split
      · rename_i hsame
        rw [hexp] at hsame
        refine h.claim hpc hsame (fun hp => ?_) ⟨hj, hrank, hi, hpassed' _ fun ho =>
          absurd ho (hfree hsame), hprotocol, ?_⟩ ⟨rfl, trivial⟩ fun slot' hp => hp.symm
        · rw [hprotocol] at hp
          exact absurd hp (by simp)
        · rw [← hslot, Function.update_self, hvalue hsame, MapRef.emptySlot]
      · rename_i hdiff
        rw [hexp] at hdiff
        simp only [hself]
        exact h.lost hpc (fun hw => hw) (hoccupied hdiff)
  | payloadCas keyCasSuccess actual =>
    simp only [MapRef.casStep]
    cases keyCasSuccess with
    | true =>
      obtain ⟨hprotocol, hkey⟩ := hcas
      split
      · rename_i hval
        exact h.finish hstart hpc (by rw [hprotocol]; simp) hkey hval
          fun c' _ => h.not_pins_of_emptyValue hprotocol hval c'
      · simp only [hself]
        refine h.move c ⟨hj, hrank, hi, hpassed, hprotocol, hkey⟩ (fun slot' ho => ?_)
          fun slot' hp => hp.elim
        rw [hpc] at ho
        exact ⟨ho.1, trivial⟩
    | false =>
      obtain ⟨hprotocol, rfl, hkey⟩ := hcas
      split
      · -- the payload is put into a slot that another call has won
        rename_i hval
        refine h.put hkey (h.new_of_emptyValue hstart hlt hval) (fun hp => ?_) (fun _ _ => hval)
          (fun c' _ => h.not_pins_of_emptyValue hprotocol hval c')
          ⟨hj, hrank, hi, hpassed' _ fun _ => rfl, hprotocol, ?_, hkey⟩ (fun slot' ho => ?_)
          fun slot' hp => hp.symm
        · rw [hprotocol] at hp
          exact absurd hp (by simp)
        · rw [← hslot, Function.update_self]
        · rw [hpc] at ho
          exact absurd ho.2 (by simp [CasPc.won])
      · simp only [hself]
        exact h.lost hpc (by simp [CasPc.won]) hkey
  | spin =>
    obtain ⟨hprotocol, hkey⟩ := hcas
    simp only [MapRef.casStep]
    split
    · rename_i hval
      exact h.finish hstart hpc (by rw [hprotocol]; simp) hkey hval
        fun c' _ => h.not_pins_of_emptyValue hprotocol hval c'
    · simp only [hself]
      refine h.move c ⟨hj, hrank, hi, hpassed, hprotocol, hkey⟩ (fun slot' ho => ?_)
        fun slot' hp => hp.elim
      rwa [hpc] at ho
  | retract actual =>
    obtain ⟨hprotocol, hcontents, hkey⟩ := hcas
    have hpin : (s.pc c).Pins (calls c) slot := by rw [hpc]; exact rfl
    have hocc : R.Occupied s.slots slot := (h.pcs c).occupied_of_pins hpin
    have hactual : (s.slots slot).1 = actual := by rw [hcontents]
    simp only [MapRef.casStep]
    refine h.put hocc (h.pins_new hpin) (fun hp => ?_) (fun hop => ?_)
      (fun c' hne hpin' => hne (h.pins_unique hpin' hpin)) ?_ (fun slot' ho => ?_)
      fun slot' hp => absurd hp not_pins_afterAttempt_lost
    · rw [hprotocol] at hp
      exact absurd hp (by simp)
    · subst hop
      exact absurd hprotocol (Op.cas_insertAndFind storage)
    · have hlost : PcInv op storage (calls c) _ _ := .afterAttempt_lost hj hrank hi
        (hpassed' ((s.slots slot).1, R.emptyValue) fun _ => rfl)
        ((MapRef.keeps_update (x := ((s.slots slot).1, R.emptyValue)) fun _ => rfl).occupied hocc)
      rw [← hslot, Function.update_self, hactual] at hlost
      rwa [hactual]
    · rw [hpc] at ho
      exact ho.2.elim
  | storePayload =>
    obtain ⟨hprotocol, hcontents⟩ := hcas
    have hpin : (s.pc c).Pins (calls c) slot := by rw [hpc]; exact rfl
    simp only [MapRef.casStep]
    refine h.finish hstart hpc (by rw [hprotocol]; simp) ?_ ?_
      fun c' hne hpin' => hne (h.pins_unique hpin' hpin)
    · rw [← hslot, hcontents]
    · rw [← hslot, hcontents]

/-- **What a call can do**: a lane reads a slot; the lanes have finished; a slot is read again; a claim
takes a step; a payload is waited for.  Only a claim writes to the table. -/
theorem MapRef.callStep_cases {c : R.Call} {slots slots' : Slots K V} {pc pc' : InsertPc K V}
    {m : Move} (h : MapRef.callStep op storage c slots pc m = some (slots', pc')) :
    (slots' = slots ∧
      ((∃ j lanes rank lane, pc = .probe j lanes ∧ rank < R.cgSize ∧
          (lanes rank).read (R.insertPredicate c.key) (fun i => slots (R.slotAt c.key j rank i))
            R.bucketSize = some lane ∧ pc' = .probe j (Function.update lanes rank lane)) ∨
        (∃ j lanes, pc = .probe j lanes ∧
          (∀ rank < R.cgSize, (lanes rank).isFinished R.bucketSize = true) ∧
          pc' = MapRef.ballot op c j lanes) ∨
        (∃ j i, pc = .copy j i ∧
          pc' = .attempt j 0 i (slots (R.slotAt c.key j 0 i)) .start) ∨
        ∃ slot inserted, pc = .wait slot inserted ∧
          pc' = if MapRef.waitsForPayload storage ∧ (slots slot).2 = R.emptyValue
            then .wait slot inserted else .done (some slot) inserted)) ∨
    ∃ j rank i expected cas, pc = .attempt j rank i expected cas ∧ m = .go := by
  cases pc with
  | probe j lanes =>
    cases m with
    | read rank =>
      simp only [MapRef.callStep] at h
      split at h
      · rename_i hrank
        obtain ⟨lane, hread, hnew⟩ := Option.map_eq_some_iff.mp h
        obtain ⟨rfl, rfl⟩ := Prod.mk.inj hnew
        exact Or.inl ⟨rfl, Or.inl ⟨j, lanes, rank, lane, rfl, hrank, hread, rfl⟩⟩
      · exact absurd h (by simp)
    | go =>
      simp only [MapRef.callStep] at h
      split at h
      · rename_i hfinished
        obtain ⟨rfl, rfl⟩ := Prod.mk.inj (Option.some.inj h)
        refine Or.inl ⟨rfl, Or.inr (Or.inl ⟨j, lanes, rfl, fun rank hrank => ?_, rfl⟩)⟩
        exact List.all_eq_true.mp hfinished rank (List.mem_range.mpr hrank)
      · exact absurd h (by simp)
  | copy j i =>
    cases m with
    | read rank => exact absurd h (by simp [MapRef.callStep])
    | go =>
      obtain ⟨rfl, rfl⟩ := Prod.mk.inj (Option.some.inj h)
      exact Or.inl ⟨rfl, Or.inr (Or.inr (Or.inl ⟨j, i, rfl, rfl⟩))⟩
  | attempt j rank i expected cas =>
    cases m with
    | read rank => exact absurd h (by simp [MapRef.callStep])
    | go => exact Or.inr ⟨j, rank, i, expected, cas, rfl, rfl⟩
  | wait slot inserted =>
    cases m with
    | read rank => exact absurd h (by simp [MapRef.callStep])
    | go =>
      obtain ⟨rfl, rfl⟩ := Prod.mk.inj (Option.some.inj h)
      exact Or.inl ⟨rfl, Or.inr (Or.inr (Or.inr ⟨slot, inserted, rfl, rfl⟩))⟩
  | done slot inserted => exact absurd h (by simp [MapRef.callStep])

/-- **Every step of an insertion keeps the invariant**, unless a single thread reads again a slot that
has been taken. -/
theorem InsertInv.step (h : InsertInv op storage calls start s) (hstart : R.Clean start) {c : ι}
    {m : Move} {s' : InsertState K V ι} (hstep : insertStep op storage calls s c m = some s')
    (hcopy : CopiesEmpty calls s c) : InsertInv op storage calls start s' := by
  obtain ⟨⟨slots', pc'⟩, hcall, rfl⟩ := Option.map_eq_some_iff.mp hstep
  rcases MapRef.callStep_cases hcall with ⟨rfl, hmove⟩ | ⟨j, rank, i, expected, cas, hpc, rfl⟩
  · rcases hmove with ⟨j, lanes, rank, lane, hpc, hrank, hread, rfl⟩ |
      ⟨j, lanes, hpc, hfinished, rfl⟩ | ⟨j, i, hpc, rfl⟩ | ⟨slot, inserted, hpc, rfl⟩
    · exact h.read hpc hrank hread
    · exact h.ballot hpc hfinished
    · exact h.copy hpc (hcopy j i hpc)
    · exact h.wait hpc
  · rw [hpc] at hcall
    exact h.attempt hstart hpc hcall

omit [DecidableEq ι] [DecidableEq K] [DecidableEq V] in
theorem InsertInv.init (hstart : R.Clean start) :
    InsertInv op storage calls start (insertInit start) where
  placed := hstart.placed
  free := hstart.free
  old _ _ _ := rfl
  stored _ := hstart.stored
  pcs c := ⟨R.numGroups_pos, fun q hq => absurd hq (by simp),
    fun rank _ => ⟨.start _ _ _ _, by simp⟩⟩
  owner _ _ ho := Or.inl ho
  pins_unique hp := hp.elim
  pins_new hp := hp.elim

/-- **The invariant of the runs in which no slot is taken between two reads of it.** -/
theorem InsertInv.of_undisturbed (hstart : R.Clean start)
    (h : (undisturbedRuns op storage calls start).Reachable s) :
    InsertInv op storage calls start s := by
  refine h.invariant (P := InsertInv op storage calls start) ?_ ?_
  · rintro s rfl
    exact .init hstart
  · intro s a s' hs hstep
    exact hs.step hstart hstep.1 hstep.2

/-- **The invariant of all runs of `insert_and_find`**, which reads no slot twice. -/
theorem InsertInv.of_insertAndFind (hstart : R.Clean start)
    (h : (insertRuns .insertAndFind storage calls start).Reachable s) :
    InsertInv .insertAndFind storage calls start s := by
  refine h.invariant (P := InsertInv .insertAndFind storage calls start) ?_ ?_
  · rintro s rfl
    exact .init hstart
  · intro s a s' hs hstep
    refine hs.step hstart hstep fun j i hpc => ?_
    have hinv := hs.pcs a.1
    rw [hpc] at hinv
    exact absurd hinv.1 (by simp)

/-! ## 5. What the calls have returned -/

/-- A step of a claim writes another key only into a slot that is as expected. -/
theorem MapRef.casStep_key (cas : Cas) (expected desired : K × V) (pc : CasPc K) (slot : K × V) :
    (R.casStep cas expected desired pc slot).1.1 = slot.1 ∨ pc = .start ∧ slot.1 = expected.1 := by
  cases pc with
  | start =>
    cases cas <;> simp only [MapRef.casStep] <;> split
    · rename_i hsame
      exact Or.inr ⟨trivial, by rw [hsame]⟩
    · exact Or.inl rfl
    · rename_i hsame
      exact Or.inr ⟨trivial, hsame⟩
    · exact Or.inl rfl
    · rename_i hsame
      exact Or.inr ⟨trivial, hsame⟩
    · exact Or.inl rfl
  | payloadCas keyCasSuccess actual =>
    simp only [MapRef.casStep]
    split <;> exact Or.inl rfl
  | spin =>
    simp only [MapRef.casStep]
    split <;> exact Or.inl rfl
  | retract actual => exact Or.inl rfl
  | storePayload => exact Or.inl rfl

/-- **A slot that holds a key keeps it.** -/
theorem InsertInv.keeps (h : InsertInv op storage calls start s) {c : ι} {m : Move}
    {s' : InsertState K V ι} (hstep : insertStep op storage calls s c m = some s') :
    R.Keeps s.slots s'.slots := by
  obtain ⟨⟨slots', pc'⟩, hcall, rfl⟩ := Option.map_eq_some_iff.mp hstep
  rcases MapRef.callStep_cases hcall with ⟨rfl, -⟩ | ⟨j, rank, i, expected, cas, hpc, rfl⟩
  · exact .refl _
  · have hinv := h.pcs c
    rw [hpc] at hcall hinv
    simp only
    rw [← (Prod.mk.inj (Option.some.inj hcall)).1]
    refine MapRef.keeps_update fun hocc => ?_
    rcases MapRef.casStep_key (R := R) (op.cas storage) expected ((calls c).key, (calls c).payload)
      cas (s.slots (R.slotAt (calls c).key j rank i)) with hkey | ⟨rfl, hkey⟩
    · exact hkey
    · rw [hinv.2.2.2.2.1] at hkey
      exact absurd hkey hocc.1

end Invariant

end Cccl.Cuco
