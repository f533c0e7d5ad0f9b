/-
# Concurrent insertions lose nothing and duplicate nothing

Any number of calls insert into a table at once.  With `insert` on a table that begins empty, no key is
ever held twice, no key is taken out of its slot, and if there are as many slots as keys then one call
for each key returns that it has inserted it, its payload is there, and lookups find just the keys
inserted (`insert_exactly_once`); but that is so only as long as no slot is taken between the moment
when a single thread finds it free and the moment when it reads it again to have something to compare
it with.  Otherwise what it compares the slot with is the key of another call, which it takes out
(`insert_loses_key`).

`insert_and_find` reads each slot once, and needs no such condition (`insertAndFind_agrees`).
-/
import Cccl.Cuco.InsertInv

namespace Cccl.Cuco

variable {K V : Type*} {R : MapRef K V}

/-! ## 1. Distinct keys -/

/-- Keys up to equivalence. -/
def MapRef.keySetoid (R : MapRef K V) : Setoid K :=
  ⟨fun a b => R.keyEqual a b = true, R.equivalence⟩

instance (R : MapRef K V) : DecidableEq (Quotient R.keySetoid) :=
  fun a b => a.recOnSubsingleton₂ b fun x y =>
    decidable_of_iff (R.keyEqual x y = true) (Quotient.eq (r := R.keySetoid)).symm

/-- How many distinct keys the calls have. -/
def distinctKeys {ι : Type*} [Fintype ι] (calls : ι → R.Call) : ℕ :=
  (Finset.univ.image fun c => Quotient.mk R.keySetoid (calls c).key).card

/-! ## 2. Calls that have returned -/

namespace InsertState

variable {ι : Type*}

/-- The call has returned this slot, or none, and whether it has inserted its key. -/
def Returned (s : InsertState K V ι) (c : ι) (slot : Option ℕ) (inserted : Bool) : Prop :=
  s.pc c = .done slot inserted

/-- All calls have returned. -/
def AllReturned (s : InsertState K V ι) : Prop :=
  ∀ c, ∃ slot inserted, s.Returned c slot inserted

end InsertState

section Returned

variable {ι : Type*} {op : Op} {storage : Storage} {calls : ι → R.Call} {start : Slots K V}
  {s : InsertState K V ι} {c c' : ι} {slot : ℕ}

theorem InsertInv.holds_of_returned (h : InsertInv op storage calls start s) {inserted : Bool}
    (hc : s.Returned c (some slot) inserted) :
    slot < R.capacity ∧ R.Holds s.slots (calls c).key slot := by
  have hinv := h.pcs c
  rw [hc] at hinv
  cases inserted with
  | true =>
    refine ⟨hinv.1, ?_⟩
    unfold MapRef.Holds MapRef.Occupied
    rw [hinv.2]
    exact ⟨(calls c).isKey, MapRef.keyEqual_refl _⟩
  | false => exact ⟨hinv.1, hinv.2.1⟩

/-- A call that has inserted its key has its payload there too. -/
theorem InsertInv.slot_of_inserted (h : InsertInv op storage calls start s) {r : Option ℕ}
    (hc : s.Returned c r true) :
    ∃ slot < R.capacity, r = some slot ∧ s.slots slot = ((calls c).key, (calls c).payload) := by
  have hinv := h.pcs c
  rw [hc] at hinv
  cases r with
  | none => exact absurd hinv.1 (by simp)
  | some slot => exact ⟨slot, hinv.1, rfl, hinv.2⟩

/-- A call that has returned no slot has found all slots with other keys. -/
theorem InsertInv.full_of_returned (h : InsertInv op storage calls start s) {inserted : Bool}
    (hc : s.Returned c none inserted) :
    inserted = false ∧ ∀ slot < R.capacity, R.HoldsOther s.slots (calls c).key slot := by
  have hinv := h.pcs c
  rw [hc] at hinv
  refine ⟨hinv.1, fun slot hslot => ?_⟩
  obtain ⟨p, hp, rfl⟩ := R.exists_position (calls c).key hslot
  exact hinv.2 p hp

theorem InsertInv.same_slot (h : InsertInv op storage calls start s) {a b : K} {slot' : ℕ}
    (hab : R.keyEqual a b = true) (hslot : slot < R.capacity) (hslot' : slot' < R.capacity)
    (ha : R.Holds s.slots a slot) (hb : R.Holds s.slots b slot') : slot = slot' := by
  refine h.placed.unique hslot hslot' ha.1 ⟨hb.1, ?_⟩
  exact MapRef.keyEqual_trans (MapRef.keyEqual_symm ha.2) (MapRef.keyEqual_trans hab hb.2)

/-- Of the calls with equivalent keys at most one has inserted its key. -/
theorem InsertInv.inserted_unique (h : InsertInv op storage calls start s) {r r' : Option ℕ}
    (hkey : R.keyEqual (calls c).key (calls c').key = true) (hc : s.Returned c r true)
    (hc' : s.Returned c' r' true) : c = c' := by
  obtain ⟨slot, hslot, rfl, -⟩ := h.slot_of_inserted hc
  obtain ⟨slot', hslot', rfl, -⟩ := h.slot_of_inserted hc'
  have hsame := h.same_slot hkey hslot hslot' (h.holds_of_returned hc).2 (h.holds_of_returned hc').2
  have hpin : (s.pc c).Pins (calls c) slot := by
    rw [hc]
    exact ⟨rfl, rfl⟩
  have hpin' : (s.pc c').Pins (calls c') slot := by
    rw [hc', hsame]
    exact ⟨rfl, rfl⟩
  exact h.pins_unique hpin hpin'

/-- When all calls have returned, a key that was not there from the beginning has been inserted by one
of them. -/
theorem InsertInv.inserter (h : InsertInv op storage calls start s) (hall : s.AllReturned)
    (hslot : slot < R.capacity) (hocc : R.Occupied s.slots slot) (hnew : ¬ R.Occupied start slot) :
    ∃ c, s.Returned c (some slot) true ∧ s.slots slot = ((calls c).key, (calls c).payload) := by
  obtain ⟨c, hc⟩ := (h.owner slot hslot hocc).resolve_left hnew
  obtain ⟨r, inserted, hret⟩ := hall c
  rw [hret] at hc
  obtain ⟨rfl, rfl⟩ := hc
  have hinv := h.pcs c
  rw [hret] at hinv
  exact ⟨c, hret, hinv.2⟩

/-- **A table that was empty has room**: if there are as many slots as distinct keys, no call has
returned without a slot. -/
theorem InsertInv.distinctKeys_gt [Fintype ι] (h : InsertInv op storage calls start s)
    (hall : s.AllReturned) (hempty : ∀ slot < R.capacity, ¬ R.Occupied start slot)
    {inserted : Bool} (hc : s.Returned c none inserted) : R.capacity < distinctKeys calls := by
  obtain ⟨-, hfull⟩ := h.full_of_returned hc
  -- the keys of the slots are distinct, and none is the key of the call
  let f : Fin R.capacity → Quotient R.keySetoid := fun slot => ⟦(s.slots slot).1⟧
  have hinj : Function.Injective f := by
    intro a b hab
    refine Fin.ext (h.placed.unique a.2 b.2 (hfull a a.2).1 ⟨(hfull b b.2).1, ?_⟩)
    exact Quotient.exact hab
  have hsub : insert ⟦(calls c).key⟧ (Finset.univ.image f) ⊆
      Finset.univ.image fun c => Quotient.mk R.keySetoid (calls c).key := by
    intro q hq
    rcases Finset.mem_insert.mp hq with rfl | hq
    · exact Finset.mem_image.mpr ⟨c, Finset.mem_univ c, rfl⟩
    · obtain ⟨slot, -, rfl⟩ := Finset.mem_image.mp hq
      obtain ⟨c', -, hc'⟩ := h.inserter hall slot.2 (hfull slot slot.2).1 (hempty slot slot.2)
      exact Finset.mem_image.mpr ⟨c', Finset.mem_univ c', by simp only [f]; rw [hc']⟩
  have hnot : ⟦(calls c).key⟧ ∉ Finset.univ.image f := by
    intro hmem
    obtain ⟨slot, -, heq⟩ := Finset.mem_image.mp hmem
    have hkey : R.keyEqual (s.slots slot).1 (calls c).key = true := Quotient.exact heq
    exact (hfull slot slot.2).not_holds ⟨(hfull slot slot.2).1, MapRef.keyEqual_symm hkey⟩
  have hcard := Finset.card_le_card hsub
  rw [Finset.card_insert_of_notMem hnot, Finset.card_image_of_injective _ hinj, Finset.card_univ,
    Fintype.card_fin] at hcard
  exact hcard

theorem InsertInv.not_erased (h : InsertInv op storage calls start s) (key : K) :
    ∀ slot < R.capacity, (s.slots slot).1 ≠ R.emptyKey → (s.slots slot).1 = R.erasedKey →
      R.keyEqual key R.erasedKey = false := by
  intro slot hslot hne herased
  have hfree := h.free slot hslot fun ho => ho.2 herased
  rw [hfree] at hne
  exact absurd rfl hne

end Returned

/-! ## 3. A small map -/

section Small

/-- Two slots, searched from the first one on. -/
def twoSlots : MapRef ℕ ℕ where
  scheme := .linearProbing fun _ => 0
  cgSize := 1
  bucketSize := 1
  capacity := 2
  cgSize_pos := by decide
  bucketSize_pos := by decide
  valid := ⟨by decide, by decide, trivial⟩
  emptyKey := 0
  emptyValue := 0
  erasedKey := 0
  keyEqual a b := a = b
  equivalence := by
    simp only [decide_eq_true_eq]
    exact eq_equivalence
  sameHash _ _ _ := rfl

/-- A single thread inserts a key. -/
def scalarCall (key payload : ℕ) (hkey : key ≠ 0) (hpayload : payload ≠ 0) : twoSlots.Call :=
  ⟨key, payload, .scalar, hkey, hkey, hpayload, fun _ => rfl⟩

variable {ι : Type*} [DecidableEq ι] (op : Op) (storage : Storage) (calls : ι → twoSlots.Call)

/-- Steps of the calls one after the other. -/
def insertRun : List (ι × Move) → InsertState ℕ ℕ ι → Option (InsertState ℕ ℕ ι)
  | [], s => some s
  | a :: l, s => (insertStep op storage calls s a.1 a.2).bind (insertRun l)

variable {op storage calls} {start : Slots ℕ ℕ}

theorem reachable_of_insertRun :
    ∀ (l : List (ι × Move)) {s s' : InsertState ℕ ℕ ι},
      (insertRuns op storage calls start).Reachable s →
      insertRun op storage calls l s = some s' → (insertRuns op storage calls start).Reachable s'
  | [], s, s', h, hrun => by
    obtain rfl := Option.some.inj hrun
    exact h
  | a :: l, s, s', h, hrun => by
    obtain ⟨s₁, hstep, hrest⟩ := Option.bind_eq_some_iff.mp hrun
    exact reachable_of_insertRun l (.step (a := a) h hstep) hrest

end Small

/-! ## 4. `insert` -/

section Main

variable [DecidableEq K] [DecidableEq V] {ι : Type*} [DecidableEq ι]

/-- **Concurrent calls of `insert` on an empty table lose nothing and duplicate nothing**, in every run
in which no slot is taken between the two reads of it by a single thread: no key is held twice, a slot
that holds a key keeps it, and when all calls have returned and there are slots enough, one call for
each key has inserted it, its payload is there, and lookups find just the keys of the calls. -/
theorem insert_exactly_once [Fintype ι] (R : MapRef K V) (storage : Storage) (calls : ι → R.Call)
    (start : Slots K V) (hempty : ∀ slot < R.capacity, start slot = R.emptySlot)
    (s : InsertState K V ι) (h : (undisturbedRuns .insert storage calls start).Reachable s) :
    (∀ a < R.capacity, ∀ b < R.capacity, R.Occupied s.slots a → R.Occupied s.slots b →
      R.keyEqual (s.slots a).1 (s.slots b).1 = true → a = b) ∧
    (∀ a s', (undisturbedRuns .insert storage calls start).step s a s' →
      ∀ slot < R.capacity, R.Occupied s.slots slot → (s'.slots slot).1 = (s.slots slot).1) ∧
    (s.AllReturned → distinctKeys calls ≤ R.capacity →
      (∀ c, ∃! c', R.keyEqual (calls c).key (calls c').key = true ∧ ∃ r, s.Returned c' r true) ∧
      (∀ c r, s.Returned c r true → ∃ slot < R.capacity, r = some slot ∧
        s.slots slot = ((calls c).key, (calls c).payload)) ∧
      ∀ form, (form = .scalar → R.cgSize = 1) → ∀ key,
        ((∃ c, R.keyEqual key (calls c).key = true) →
          R.contains form s.slots key = some true ∧
          ∃ slot < R.capacity, R.find form s.slots key = some (some slot) ∧
            R.Holds s.slots key slot) ∧
        ((¬ ∃ c, R.keyEqual key (calls c).key = true) →
          R.contains form s.slots key = some false ∧ R.find form s.slots key = some none)) := by
  have hfree : ∀ slot < R.capacity, ¬ R.Occupied start slot := by
    intro slot hslot hocc
    unfold MapRef.Occupied at hocc
    rw [hempty slot hslot] at hocc
    exact hocc.1 rfl
  have hclean : R.Clean start := by
    refine ⟨⟨fun ha _ hocc => absurd hocc (hfree _ ha), fun _ hholds => ?_⟩,
      fun slot hslot _ => hempty slot hslot, fun slot hslot hocc => absurd hocc (hfree slot hslot)⟩
    exact absurd hholds.1 (hfree _ (R.probe_lt _ _))
  have hinv := InsertInv.of_undisturbed hclean h
  refine ⟨fun a ha b hb hoa hob hkey => hinv.placed.unique ha hb hoa ⟨hob, hkey⟩,
    fun a s' hstep slot _ hocc => hinv.keeps hstep.1 slot hocc, fun hall hroom => ?_⟩
  -- every call has its key in a slot, which one of the calls has inserted
  have hslots : ∀ c, ∃ slot < R.capacity, R.Holds s.slots (calls c).key slot := by
    intro c
    obtain ⟨r, inserted, hret⟩ := hall c
    cases r with
    | none => exact absurd hroom (hinv.distinctKeys_gt hall hfree hret).not_ge
    | some slot => exact ⟨slot, hinv.holds_of_returned hret⟩
  have hinserted : ∀ {key slot}, slot < R.capacity → R.Holds s.slots key slot →
      ∃ c, R.keyEqual key (calls c).key = true ∧ ∃ r, s.Returned c r true := by
    intro key slot hslot hholds
    obtain ⟨c, hret, hcontents⟩ := hinv.inserter hall hslot hholds.1 (hfree slot hslot)
    refine ⟨c, ?_, _, hret⟩
    have := hholds.2
    rwa [hcontents] at this
  refine ⟨fun c => ?_, fun c r hret => hinv.slot_of_inserted hret, fun form hform key => ?_⟩
  · obtain ⟨slot, hslot, hholds⟩ := hslots c
    obtain ⟨c', hkey, r, hret⟩ := hinserted hslot hholds
    refine ⟨c', ⟨hkey, r, hret⟩, ?_⟩
    rintro c'' ⟨hkey', r', hret'⟩
    exact hinv.inserted_unique
      (MapRef.keyEqual_trans (MapRef.keyEqual_symm hkey') hkey) hret' hret
  · have herased := hinv.not_erased key
    refine ⟨?_, fun hnone => ?_⟩
    · rintro ⟨c, hkey⟩
      obtain ⟨slot, hslot, hholds⟩ := hslots c
      have hholds' : R.Holds s.slots key slot := ⟨hholds.1, MapRef.keyEqual_trans hkey hholds.2⟩
      exact ⟨hinv.placed.lookup_of_holds hform herased hslot hholds', slot, hslot,
        hinv.placed.lookup_of_holds hform herased hslot hholds', hholds'⟩
    · have habsent : ∀ slot < R.capacity, ¬ R.Holds s.slots key slot := by
        intro slot hslot hholds
        obtain ⟨c, hkey, -⟩ := hinserted hslot hholds
        exact hnone ⟨c, hkey⟩
      exact ⟨MapRef.lookup_of_absent hform herased habsent,
        MapRef.lookup_of_absent hform herased habsent⟩

/-- A single thread inserts a key into an empty table, and the key is found. -/
theorem insert_exactly_once_oneCall :
    ∃ s, (undisturbedRuns .insert ⟨true, false⟩
        (fun _ : Unit => scalarCall 1 5 (by decide) (by decide))
        (fun _ => twoSlots.emptySlot)).Reachable s ∧ s.AllReturned ∧
      twoSlots.contains .scalar s.slots 1 = some true := by
  have h0 : (undisturbedRuns .insert ⟨true, false⟩
      (fun _ : Unit => scalarCall 1 5 (by decide) (by decide))
      (fun _ => twoSlots.emptySlot)).Reachable _ := .init rfl
  have h1 := Lts.Reachable.step (a := ((), Move.read 0)) h0
    ⟨rfl, fun j i hcopy => by simp [insertInit] at hcopy⟩
  have h2 := Lts.Reachable.step (a := ((), Move.go)) h1 ⟨rfl, fun j i hcopy => by simp at hcopy⟩
  have h3 := Lts.Reachable.step (a := ((), Move.go)) h2 ⟨rfl, fun j i hcopy => by cases hcopy; rfl⟩
  have h4 := Lts.Reachable.step (a := ((), Move.go)) h3 ⟨rfl, fun j i hcopy => by cases hcopy⟩
  have hall := insert_exactly_once _ _ _ _ (fun _ _ => rfl) _ h4
  obtain ⟨-, -, hlookup⟩ := hall.2.2 (fun c => ⟨_, _, rfl⟩) (by decide)
  exact ⟨_, h4, fun c => ⟨_, _, rfl⟩, ((hlookup .scalar (fun _ => rfl) 1).1 ⟨(), by decide⟩).1⟩

/-- Two threads with different keys. -/
def twoCalls : Bool → twoSlots.Call
  | false => scalarCall 1 5 (by decide) (by decide)
  | true => scalarCall 2 6 (by decide) (by decide)

/-- **A key is lost.**  A thread finds the first slot free; then another thread inserts its key there;
then the first thread reads the slot again, and exchanges what it has read for its own key.  Both
report to have inserted their keys, and the second key is not there. -/
theorem insert_loses_key :
    ∃ s, (insertRuns .insert ⟨true, false⟩ twoCalls (fun _ => twoSlots.emptySlot)).Reachable s ∧
      s.AllReturned ∧ distinctKeys twoCalls ≤ twoSlots.capacity ∧
      s.Returned false (some 0) true ∧ s.Returned true (some 0) true ∧
      twoSlots.contains .scalar s.slots (twoCalls true).key = some false := by
  refine ⟨_, reachable_of_insertRun [(false, .read 0), (false, .go), (true, .read 0), (true, .go),
    (true, .go), (true, .go), (false, .go), (false, .go)] (.init rfl) rfl, fun c => ?_, by decide,
    rfl, rfl, by decide⟩
  cases c with
  | false => exact ⟨_, _, rfl⟩
  | true => exact ⟨_, _, rfl⟩

/-! ## 5. `insert_and_find` -/

/-- **Concurrent calls of `insert_and_find` agree with the table**, in every run on a table without
erased slots: calls with equivalent keys return the same slot; a key that was there keeps its slot and
payload and no call reports to have inserted it; of the calls with a key that was not there, once all
have returned, one reports to have inserted it, unless there was no slot for it; the payload in the
slot is not the sentinel, and is that of the call that has inserted it; and no slot is returned only if
all slots hold other keys. -/
theorem insertAndFind_agrees (R : MapRef K V) (storage : Storage) (calls : ι → R.Call)
    (start : Slots K V) (hstart : R.Clean start) (s : InsertState K V ι)
    (h : (insertRuns .insertAndFind storage calls start).Reachable s) :
    (∀ c c' r r' b b', R.keyEqual (calls c).key (calls c').key = true → s.Returned c r b →
      s.Returned c' r' b' → r = r') ∧
    (∀ c, ∀ slot < R.capacity, R.Holds start (calls c).key slot → s.slots slot = start slot ∧
      ∀ r b, s.Returned c r b → r = some slot ∧ b = false) ∧
    (∀ c, (∀ slot < R.capacity, ¬ R.Holds start (calls c).key slot) → s.AllReturned →
      (∃ slot b, s.Returned c (some slot) b) →
      ∃! c', R.keyEqual (calls c).key (calls c').key = true ∧ ∃ r, s.Returned c' r true) ∧
    (∀ c slot b, s.Returned c (some slot) b → slot < R.capacity ∧
      R.Holds s.slots (calls c).key slot ∧ (s.slots slot).2 ≠ R.emptyValue ∧
      ∀ c' r, R.keyEqual (calls c).key (calls c').key = true → s.Returned c' r true →
        s.slots slot = ((calls c').key, (calls c').payload)) ∧
    (∀ c b, s.Returned c none b → b = false ∧
      ∀ slot < R.capacity, R.HoldsOther s.slots (calls c).key slot) := by
  have hinv := InsertInv.of_insertAndFind hstart h
  have hsame : ∀ c c' r r' b b', R.keyEqual (calls c).key (calls c').key = true →
      s.Returned c r b → s.Returned c' r' b' → r = r' := by
    -- where a call has found no room for the key, no other has found the key
    have hmixed : ∀ {c c' slot b b'}, R.keyEqual (calls c).key (calls c').key = true →
        s.Returned c none b → ¬ s.Returned c' (some slot) b' := by
      intro c c' slot b b' hkey hc hc'
      obtain ⟨hslot, hholds⟩ := hinv.holds_of_returned hc'
      refine ((hinv.full_of_returned hc).2 slot hslot).not_holds ⟨hholds.1, ?_⟩
      exact MapRef.keyEqual_trans hkey hholds.2
    intro c c' r r' b b' hkey hc hc'
    cases r with
    | none =>
      cases r' with
      | none => rfl
      | some slot' => exact absurd hc' (hmixed hkey hc)
    | some slot =>
      cases r' with
      | none => exact absurd hc (hmixed (MapRef.keyEqual_symm hkey) hc')
      | some slot' =>
        obtain ⟨hslot, hholds⟩ := hinv.holds_of_returned hc
        obtain ⟨hslot', hholds'⟩ := hinv.holds_of_returned hc'
        rw [hinv.same_slot hkey hslot hslot' hholds hholds']
  refine ⟨hsame, fun c slot hslot hholds => ?_, fun c habsent hall hsome => ?_,
    fun c slot b hc => ?_, fun c b hc => hinv.full_of_returned hc⟩
  · have hold := hinv.old slot hslot hholds.1
    have hholds' : R.Holds s.slots (calls c).key slot := by
      unfold MapRef.Holds MapRef.Occupied
      rw [hold]
      exact hholds
    refine ⟨hold, fun r b hc => ?_⟩
    cases r with
    | none => exact absurd hholds' ((hinv.full_of_returned hc).2 slot hslot).not_holds
    | some slot' =>
      obtain ⟨hslot', hfound⟩ := hinv.holds_of_returned hc
      obtain rfl := hinv.same_slot (MapRef.keyEqual_refl _) hslot hslot' hholds' hfound
      refine ⟨rfl, ?_⟩
      cases b with
      | false => rfl
      | true =>
        have hpin : (s.pc c).Pins (calls c) slot := by
          rw [hc]
          exact ⟨rfl, rfl⟩
        exact absurd hholds.1 (hinv.pins_new hpin)
  · obtain ⟨slot, b, hc⟩ := hsome
    obtain ⟨hslot, hholds⟩ := hinv.holds_of_returned hc
    have hnew : ¬ R.Occupied start slot := by
      intro hocc
      have hold := hinv.old slot hslot hocc
      rw [MapRef.Holds, hold] at hholds
      exact habsent slot hslot ⟨hocc, hholds.2⟩
    obtain ⟨c', hret, hcontents⟩ := hinv.inserter hall hslot hholds.1 hnew
    have hkey := hholds.2
    rw [hcontents] at hkey
    refine ⟨c', ⟨hkey, _, hret⟩, ?_⟩
    rintro c'' ⟨hkey', r', hret'⟩
    exact hinv.inserted_unique
      (MapRef.keyEqual_trans (MapRef.keyEqual_symm hkey') hkey) hret' hret
  · obtain ⟨hslot, hholds⟩ := hinv.holds_of_returned hc
    refine ⟨hslot, hholds, ?_, fun c' r hkey hc' => ?_⟩
    · have hpc := hinv.pcs c
      rw [hc] at hpc
      cases b with
      | true =>
        rw [hpc.2]
        exact (calls c).payload_ne_empty
      | false => exact hpc.2.2 rfl
    · obtain ⟨slot', hslot', rfl, hcontents⟩ := hinv.slot_of_inserted hc'
      have := hsame c c' _ _ _ _ hkey hc hc'
      rw [Option.some.inj this]
      exact hcontents

/-- Two threads with one key. -/
def sameKeyCalls : Bool → twoSlots.Call
  | false => scalarCall 1 5 (by decide) (by decide)
  | true => scalarCall 1 6 (by decide) (by decide)

/-- Two threads with one key and different payloads: the second finds the key before the payload, and
waits for it. -/
theorem insertAndFind_agrees_sameKey :
    ∃ s, (insertRuns .insertAndFind ⟨false, false⟩ sameKeyCalls
        (fun _ => twoSlots.emptySlot)).Reachable s ∧
      s.Returned true (some 0) false ∧ s.Returned false (some 0) true ∧ s.slots 0 = (1, 5) := by
  have hreach : (insertRuns .insertAndFind ⟨false, false⟩ sameKeyCalls
      (fun _ => twoSlots.emptySlot)).Reachable _ := reachable_of_insertRun [(false, .read 0),
    (false, .go), (false, .go), (true, .read 0), (true, .go), (true, .go), (false, .go),
    (false, .go), (true, .go)] (.init rfl) rfl
  have hfree : ∀ slot, ¬ twoSlots.Occupied (fun _ => twoSlots.emptySlot) slot := fun _ ho => ho.1 rfl
  have hclean : twoSlots.Clean (fun _ => twoSlots.emptySlot) :=
    ⟨⟨fun _ _ ho => absurd ho (hfree _), fun _ ho => absurd ho.1 (hfree _)⟩, fun _ _ _ => rfl,
      fun slot _ ho => absurd ho (hfree slot)⟩
  have hall := insertAndFind_agrees _ _ _ _ hclean _ hreach
  exact ⟨_, hreach, rfl, rfl, (hall.2.2.2.1 true 0 false rfl).2.2.2 false _ (by decide) rfl⟩

end Main

end Cccl.Cuco
