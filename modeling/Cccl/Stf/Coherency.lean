/-
# Coherency of a logical data

Any sequence of accesses, of reclaimed instances and of adopted ones, on one logical data, with
the contents of every instance tracked alongside its MSI state.  The result is what the protocol
is for: whenever the data has a value, some instance is valid, every valid instance holds that
value, and reading any instance whatsoever, with the copy this takes, yields it
(`coherency_invariant`).

The events play no part in this, so the protocol is first stripped of them: `Effect` and
`ReclaimEffect` say what an access and a reclaim do to the MSI states alone, and which copies they
issue, and the argument is made on those.

Two operations keep coherency only where they are meant to be used.  An instance that the library
does not own is not reclaimable, and reclaiming it anyway can lose the last valid copy.  A view
can only be adopted while the reference instance is valid, as in the read-only imports it is made
for: adopted after a write elsewhere it stands next to a modified instance
(`adopt_after_write_incoherent`).
-/
import Mathlib.Data.Finset.Card
import Cccl.Lib.Transition
import Cccl.Stf.Msi

namespace Cccl.Stf

open MsirStateId

variable {E V : Type*}

/-! ## 1. The protocol without its events -/

/-- The MSI states of a table. -/
def LogicalData.msir (d : LogicalData E) (i : ℕ) : MsirStateId :=
  (d.inst i).msir

/-- Only instance `id` is valid, and it is modified. -/
def onlyModified (id i : ℕ) : MsirStateId :=
  if i = id then .modified else .invalid

/-- What an access does to the MSI states, and the copies (destination, source) it issues. -/
inductive Effect (m : ℕ → MsirStateId) (id : ℕ) :
    AccessMode → (ℕ → MsirStateId) → List (ℕ × ℕ) → Prop
  | readHit : m id ≠ .invalid → Effect m id .read m []
  | readMiss {src : ℕ} : m id = .invalid → m src ≠ .invalid →
      Effect m id .read (fun i => if i = id ∨ m i ≠ .invalid then .shared else .invalid) [(id, src)]
  | writeHit {mode : AccessMode} : mode ≠ .read → m id = .modified → Effect m id mode m []
  | writeUpgrade {mode : AccessMode} : mode ≠ .read → m id = .shared →
      Effect m id mode (onlyModified id) []
  | writeMiss {mode : AccessMode} {src : ℕ} : mode = .rw ∨ mode = .reduceNoInit →
      m id = .invalid → m src ≠ .invalid → Effect m id mode (onlyModified id) [(id, src)]
  | overwrite {mode : AccessMode} : mode = .write ∨ mode = .reduce → m id = .invalid →
      Effect m id mode (onlyModified id) []

/-- What a reclaim does to the MSI states. -/
inductive ReclaimEffect (m : ℕ → MsirStateId) (id : ℕ) :
    (ℕ → MsirStateId) → List (ℕ × ℕ) → Prop
  | invalid : m id = .invalid → ReclaimEffect m id m []
  /-- Slot 0 becomes the only valid copy. -/
  | modified {ref : ℕ} : m id = .modified →
      ReclaimEffect m id
        (fun i => if i = id then .invalid else if i = 0 then .modified else m i) [(ref, id)]
  /-- One other copy is left, and it becomes modified. -/
  | last {j : ℕ} : m id = .shared → j ≠ id → m j ≠ .invalid →
      (∀ i, i ≠ id → m i ≠ .invalid → i = j) → ReclaimEffect m id (onlyModified j) []
  /-- Any other number of copies is left, and they become shared. -/
  | others : m id = .shared →
      (∀ i, i ≠ id → m i ≠ .invalid → ∃ j, j ≠ id ∧ j ≠ i ∧ m j ≠ .invalid) →
      ReclaimEffect m id (fun i => if i ≠ id ∧ m i ≠ .invalid then .shared else .invalid) []

/-- Everything about the instances but their MSI state and their events. -/
structure SameTable (d d' : LogicalData E) : Prop where
  count : d'.count = d.count
  reference : d'.referenceInstanceId = d.referenceInstanceId
  used : ∀ i, (d'.inst i).used = (d.inst i).used
  allocated : ∀ i, (d'.inst i).allocated = (d.inst i).allocated
  reclaimable : ∀ i, (d'.inst i).reclaimable = (d.inst i).reclaimable
  allocatedSize : ∀ i, (d'.inst i).allocatedSize = (d.inst i).allocatedSize

section Refinement

variable {id : ℕ} {mode : AccessMode} {copyDone prereqs : List E} {d : LogicalData E}
  {u : Update E}

theorem writeShared_msir : (d.writeShared id prereqs).data.msir = onlyModified id := by
  funext i
  by_cases hi : i = id <;> simp [LogicalData.writeShared, LogicalData.msir, onlyModified, hi]

theorem writeInvalid_msir (src : Option ℕ) :
    (d.writeInvalid copyDone id src prereqs).data.msir = onlyModified id := by
  funext i
  cases src <;> simp [LogicalData.writeInvalid, LogicalData.msir, onlyModified]

variable [LinearOrder E] {B : EventBackend E}

theorem readInvalid_msir (src : ℕ) :
    (d.readInvalid B copyDone id src prereqs).data.msir
      = fun i => if i = id ∨ d.msir i ≠ .invalid then .shared else .invalid := by
  funext i
  by_cases hi : i = id
  · simp [LogicalData.readInvalid, LogicalData.msir, hi]
  · by_cases hs : i = src <;> by_cases hm : (d.inst i).msir = .invalid <;>
      simp_all [LogicalData.readInvalid, LogicalData.msir, DataInstance.addWritePrereq]

/-- **`enforce_msi_protocol` has the stated effect.** -/
theorem enforceMsiProtocol_effect (hmode : mode.IsPlain) (hredux : d.msir id ≠ .reduction)
    (h : d.enforceMsiProtocol B copyDone id mode prereqs = some u) :
    Effect d.msir id mode u.data.msir (u.copies.map fun c => (c.dst, c.src)) := by
  rcases LogicalData.enforceMsiProtocol_cases hmode hredux h with
    ⟨rfl, hm, rfl⟩ | ⟨src, rfl, hm, hsrc, rfl⟩ | ⟨hw, hm, rfl⟩ | ⟨hw, hm, rfl⟩ |
      ⟨src, hold, hm, hsrc, rfl⟩ | ⟨hnew, hm, rfl⟩
  · exact .readHit hm
  · rw [readInvalid_msir]
    exact .readMiss hm (LogicalData.findSourceInstanceId_some hsrc).2
  · exact .writeHit hw hm
  · rw [writeShared_msir]
    exact .writeUpgrade hw hm
  · rw [writeInvalid_msir]
    exact .writeMiss hold hm (LogicalData.findSourceInstanceId_some hsrc).2
  · rw [writeInvalid_msir]
    exact .overwrite hnew hm

/-- An access changes nothing of the table but states and events. -/
theorem enforceMsiProtocol_sameTable (hmode : mode.IsPlain) (hredux : d.msir id ≠ .reduction)
    (h : d.enforceMsiProtocol B copyDone id mode prereqs = some u) : SameTable d u.data := by
  rcases LogicalData.enforceMsiProtocol_cases hmode hredux h with
    ⟨-, -, rfl⟩ | ⟨src, -, -, -, rfl⟩ | ⟨-, -, rfl⟩ | ⟨-, -, rfl⟩ | ⟨src, -, -, -, rfl⟩ |
      ⟨-, -, rfl⟩
  · constructor <;> simp
  · constructor <;> intros <;>
      simp only [LogicalData.readInvalid, DataInstance.addWritePrereq, LogicalData.modify_count,
        LogicalData.modifyAll_count, LogicalData.modifyAll_inst, LogicalData.modify_inst,
        LogicalData.modify_referenceInstanceId, LogicalData.modifyAll_referenceInstanceId] <;>
      (repeat' split) <;> rfl
  · constructor <;> simp
  · constructor <;> intros <;>
      simp only [LogicalData.writeShared, LogicalData.modifyAll_count,
        LogicalData.modifyAll_inst, LogicalData.modifyAll_referenceInstanceId] <;>
      split <;> rfl
  · constructor <;> intros <;>
      simp only [LogicalData.writeInvalid, LogicalData.modify_count,
        LogicalData.modifyAll_count, LogicalData.modifyAll_inst, LogicalData.modify_inst,
        LogicalData.modify_referenceInstanceId, LogicalData.modifyAll_referenceInstanceId] <;>
      (repeat' split) <;> rfl
  · constructor <;> simp [LogicalData.writeInvalid]

/-- **Where some instance is valid, every access goes through.** -/
theorem enforceMsiProtocol_total (B : EventBackend E) (copyDone prereqs : List E)
    (hmode : mode.IsPlain) (hredux : d.msir id ≠ .reduction)
    {i : ℕ} (hi : i < d.count) (hvalid : d.msir i ≠ .invalid) :
    ∃ u, d.enforceMsiProtocol B copyDone id mode prereqs = some u := by
  obtain ⟨src, hsrc⟩ := LogicalData.exists_findSourceInstanceId hi hvalid
  obtain ⟨hnone, hrelaxed⟩ := hmode
  unfold LogicalData.msir at hredux
  cases hm : (d.inst id).msir with
  | reduction => exact absurd hm hredux
  | modified | shared => cases mode <;> simp_all [LogicalData.enforceMsiProtocol]
  | invalid => cases mode <;> simp_all [LogicalData.enforceMsiProtocol]

/-- The instances that are not invalid, as a set. -/
def LogicalData.validSet (d : LogicalData E) : Finset ℕ :=
  (Finset.range d.count).filter fun i => d.msir i ≠ .invalid

omit [LinearOrder E] in
theorem copyCount_eq_card (d : LogicalData E) : d.copyCount = d.validSet.card := by
  unfold LogicalData.copyCount LogicalData.validSet
  rw [List.countP_eq_length_filter]
  rfl

omit [LinearOrder E] in
theorem mem_validSet (hrange : ∀ i, d.msir i ≠ .invalid → i < d.count) {i : ℕ} :
    i ∈ d.validSet ↔ d.msir i ≠ .invalid := by
  simp only [LogicalData.validSet, Finset.mem_filter, Finset.mem_range, and_iff_right_iff_imp]
  exact hrange i

theorem reclaimShared_msir :
    (d.reclaimShared B id prereqs).data.msir = fun i =>
      if i ≠ id ∧ d.msir i ≠ .invalid then (if d.copyCount = 2 then .modified else .shared)
      else .invalid := by
  funext i
  by_cases hi : i = id
  · simp [LogicalData.reclaimShared, LogicalData.msir, hi]
  · by_cases hm : (d.inst i).msir = .invalid <;>
      simp [LogicalData.reclaimShared, LogicalData.msir, hi, hm]

/-- **`reclaim_update_state` has the stated effect.** -/
theorem reclaimUpdateState_effect (hrange : ∀ i, d.msir i ≠ .invalid → i < d.count)
    (h : d.reclaimUpdateState B copyDone id prereqs = some u) :
    ReclaimEffect d.msir id u.data.msir (u.copies.map fun c => (c.dst, c.src)) := by
  unfold LogicalData.reclaimUpdateState at h
  split at h
  · rename_i hm
    obtain rfl : _ = u := Option.some.inj h
    have hsame : LogicalData.msir (d.modify id fun n => n.addReadPrereq B prereqs) = d.msir := by
      funext i
      by_cases hi : i = id <;> simp [LogicalData.msir, DataInstance.addReadPrereq, hi]
    rw [hsame]
    exact .invalid hm
  · rename_i hm
    unfold LogicalData.reclaimModified at h
    split at h
    · exact absurd h (by simp)
    · rename_i ref href
      obtain rfl : _ = u := Option.some.inj h
      have hafter : LogicalData.msir
            ((((d.modify 0 fun n => { n with msir := .modified }).modify id
              fun n => { n with msir := .invalid }).modify 0
                fun n => n.addReadPrereq B copyDone).modify id
                  fun n => n.addReadPrereq B copyDone)
          = fun i => if i = id then .invalid else if i = 0 then .modified else d.msir i := by
        funext i
        by_cases hi : i = id <;> by_cases h0 : i = 0 <;>
          simp_all [LogicalData.msir, DataInstance.addReadPrereq]
      simp only [hafter]
      exact .modified hm
  · rename_i hm
    obtain rfl : _ = u := Option.some.inj h
    rw [reclaimShared_msir]
    have hid : id ∈ d.validSet := (mem_validSet hrange).mpr (by simp [LogicalData.msir, hm])
    by_cases htwo : d.copyCount = 2
    · -- exactly one other copy
      have hcard : (d.validSet.erase id).card = 1 := by
        rw [Finset.card_erase_of_mem hid, ← copyCount_eq_card, htwo]
      obtain ⟨j, hj⟩ := Finset.card_eq_one.mp hcard
      have hmem : ∀ i, (i ≠ id ∧ d.msir i ≠ .invalid) ↔ i = j := by
        intro i
        rw [← mem_validSet hrange, ← Finset.mem_erase, hj, Finset.mem_singleton]
      simp only [htwo, if_true, hmem]
      exact .last hm ((hmem j).mpr rfl).1 ((hmem j).mpr rfl).2 fun i hi hv => (hmem i).mp ⟨hi, hv⟩
    · simp only [htwo, if_false]
      refine .others hm fun i hi hv => ?_
      -- a copy that is neither the reclaimed one nor `i`, or else there would be two
      by_contra hnone
      push Not at hnone
      refine htwo ?_
      have hset : d.validSet = {id, i} := by
        ext j
        rw [mem_validSet hrange, Finset.mem_insert, Finset.mem_singleton]
        constructor
        · intro hj
          by_contra hne
          push Not at hne
          exact hj (hnone j hne.1 hne.2)
        · rintro (rfl | rfl)
          · simp [LogicalData.msir, hm]
          · exact hv
      rw [copyCount_eq_card, hset, Finset.card_pair (Ne.symm hi)]
  · exact absurd h (by simp)

/-- A reclaim changes nothing of the table but states and events. -/
theorem reclaimUpdateState_sameTable (h : d.reclaimUpdateState B copyDone id prereqs = some u) :
    SameTable d u.data := by
  unfold LogicalData.reclaimUpdateState at h
  split at h
  · obtain rfl : _ = u := Option.some.inj h
    constructor <;> intros <;>
      simp only [LogicalData.modify_count, LogicalData.modify_inst, DataInstance.addReadPrereq,
        LogicalData.modify_referenceInstanceId] <;> (repeat' split) <;> rfl
  · unfold LogicalData.reclaimModified at h
    split at h
    · exact absurd h (by simp)
    · obtain rfl : _ = u := Option.some.inj h
      constructor <;> intros <;>
        simp only [LogicalData.modify_count, LogicalData.modify_inst, DataInstance.addReadPrereq,
          LogicalData.modify_referenceInstanceId] <;> (repeat' split) <;> rfl
  · obtain rfl : _ = u := Option.some.inj h
    constructor <;> intros <;>
      simp only [LogicalData.reclaimShared, LogicalData.modify_count, LogicalData.modify_inst,
        DataInstance.addReadPrereq, LogicalData.modifyAll_count, LogicalData.modifyAll_inst,
        LogicalData.modify_referenceInstanceId,
        LogicalData.modifyAll_referenceInstanceId] <;> (repeat' split) <;> rfl
  · exact absurd h (by simp)

end Refinement

/-! ## 2. Coherent states -/

/-- The contents of the instances after some copies, in order. -/
def copyContents : List (ℕ × ℕ) → (ℕ → V) → ℕ → V
  | [], content => content
  | (dst, src) :: rest, content => copyContents rest (Function.update content dst (content src))

/-- **Coherent MSI states**: one modified instance excludes all others, every valid instance holds
the value of the data, and a data that has a value has a valid instance. -/
structure Coherent (m : ℕ → MsirStateId) (content : ℕ → V) (value : Option V) : Prop where
  no_reduction : ∀ i, m i ≠ .reduction
  unique : ∀ i, m i = .modified → ∀ j, j ≠ i → m j = .invalid
  holds : ∀ i, m i ≠ .invalid → value = some (content i)
  exists_valid : value ≠ none → ∃ i, m i ≠ .invalid

section Coherent

variable {m m' : ℕ → MsirStateId} {content : ℕ → V} {value : Option V} {id : ℕ}
  {mode : AccessMode} {copies : List (ℕ × ℕ)}

/-- One modified instance and nothing else is coherent, whatever it holds. -/
theorem coherent_onlyModified (id : ℕ) (content : ℕ → V) :
    Coherent (onlyModified id) content (some (content id)) := by
  refine ⟨fun i => ?_, fun i hi j hj => ?_, fun i hi => ?_, fun _ => ⟨id, ?_⟩⟩
  · unfold onlyModified
    split <;> simp
  · have hid : i = id := by
      by_contra hne
      simp [onlyModified, hne] at hi
    simp [onlyModified, hid ▸ hj]
  · have hid : i = id := by
      by_contra hne
      simp [onlyModified, hne] at hi
    rw [hid]
  · simp [onlyModified]

/-- **A reading access** leaves coherent states, and the accessed instance holds the value. -/
theorem Effect.coherent_read (h : Effect m id .read m' copies) (hc : Coherent m content value) :
    Coherent m' (copyContents copies content) value ∧
      value = some (copyContents copies content id) := by
  cases h with
  | readHit hm => exact ⟨hc, hc.holds id hm⟩
  | writeHit hw => exact absurd rfl hw
  | writeUpgrade hw => exact absurd rfl hw
  | writeMiss hw => simp at hw
  | overwrite hw => simp at hw
  | @readMiss src hm hsrc =>
    have hvalue : value = some (content src) := hc.holds src hsrc
    have hid : copyContents [(id, src)] content id = content src := by simp [copyContents]
    refine ⟨⟨fun i => ?_, fun i hi => ?_, fun i hi => ?_, fun _ => ⟨id, by simp⟩⟩, by rw [hid, hvalue]⟩
    · split <;> simp
    · split at hi <;> simp at hi
    · by_cases hii : i = id
      · rw [hii, hid, hvalue]
      · have hmi : m i ≠ .invalid := by
          intro hinv
          simp [hii, hinv] at hi
        simp only [copyContents, Function.update_of_ne hii]
        exact hc.holds i hmi

/-- Before a writing access that needs the old contents, the instance holds the value; after any
writing access only that instance is valid. -/
theorem Effect.coherent_write (h : Effect m id mode m' copies) (hc : Coherent m content value)
    (hmode : mode ≠ .read) :
    (mode ≠ .write → mode ≠ .reduce → value = some (copyContents copies content id)) ∧
      m' = onlyModified id := by
  cases h with
  | readHit => exact absurd rfl hmode
  | readMiss => exact absurd rfl hmode
  | writeHit _ hm =>
    refine ⟨fun _ _ => hc.holds id (by simp [hm]), ?_⟩
    funext i
    by_cases hi : i = id
    · simp [onlyModified, hi, hm]
    · simp [onlyModified, hi, hc.unique id hm i hi]
  | writeUpgrade _ hm => exact ⟨fun _ _ => hc.holds id (by simp [hm]), rfl⟩
  | @writeMiss _ src _ hm hsrc =>
    refine ⟨fun _ _ => ?_, rfl⟩
    simp only [copyContents, Function.update_self]
    exact hc.holds src hsrc
  | overwrite hover _ =>
    refine ⟨fun hw hr => ?_, rfl⟩
    rcases hover with h | h
    · exact absurd h hw
    · exact absurd h hr

/-- **A reclaim** leaves coherent states: the write-back goes to slot 0, which is not the
reclaimed one, and a shared instance is never the last. -/
theorem ReclaimEffect.coherent (h : ReclaimEffect m id m' copies)
    (hc : Coherent m content value) (hpair : m id = .shared → ∃ j, j ≠ id ∧ m j ≠ .invalid)
    (href : ∀ c ∈ copies, c.1 = 0 ∧ id ≠ 0) :
    Coherent m' (copyContents copies content) value := by
  cases h with
  | invalid => exact hc
  | @modified ref hm =>
    obtain ⟨rfl, hid⟩ := href (ref, id) (by simp)
    have hm' : (fun i => if i = id then .invalid else if i = 0 then .modified else m i)
        = onlyModified 0 := by
      funext i
      by_cases h0 : i = 0
      · simp [onlyModified, h0, Ne.symm hid]
      · by_cases hi : i = id
        · simp [onlyModified, hi, hid]
        · simp [onlyModified, h0, hi, hc.unique id hm i hi]
    rw [hm', hc.holds id (by simp [hm])]
    have hcopy : content id = copyContents [(0, id)] content 0 := by simp [copyContents]
    rw [hcopy]
    exact coherent_onlyModified 0 _
  | @last j hm hj hv hothers =>
    rw [hc.holds j hv]
    exact coherent_onlyModified j content
  | others hm hmore =>
    refine ⟨fun i => ?_, fun i hi => ?_, fun i hi => ?_, fun _ => ?_⟩
    · split <;> simp
    · split at hi <;> simp at hi
    · have hmi : m i ≠ .invalid := by
        intro hinv
        simp [hinv] at hi
      exact hc.holds i hmi
    · obtain ⟨j, hj, hv⟩ := hpair hm
      exact ⟨j, by simp [hj, hv]⟩

end Coherent

/-! ## 3. Runs of the protocol -/

/-- A logical data with the contents of its instances.  `value` is the last value written, or the
one the data was initialised with. -/
structure CoherencyState (E V : Type*) where
  data : LogicalData E
  content : ℕ → V
  value : Option V

/-- What can be done to a logical data. -/
inductive CoherencyAction (E V : Type*) where
  /-- Look up or create the instance at a place. -/
  | findInstance (place : DataPlace)
  /-- Access an instance; memory that is allocated for it holds `junk`, and an access that is not
  a read leaves `v` in it. -/
  | access (id size : ℕ) (mode : AccessMode) (prereqs copyDone : List E) (junk v : V)
  | reclaim (id : ℕ) (copyDone : List E)
  /-- Adopt an instance that holds `view`. -/
  | adopt (place : DataPlace) (startEvents : List E) (view : V)

section Run

variable [LinearOrder E]

/-- The part of `fetch_data` that prepares an instance: allocate it if need be and enforce the
protocol.  What it holds afterwards is what the task sees. -/
def fetchInstance (B : EventBackend E) (id size : ℕ) (mode : AccessMode)
    (prereqs copyDone : List E) (junk : V) (s : CoherencyState E V) :
    Option (CoherencyState E V) :=
  let (d, prereqs) := s.data.depAllocate id size prereqs
  let content :=
    if (s.data.inst id).allocated then s.content else Function.update s.content id junk
  (d.enforceMsiProtocol B copyDone id mode prereqs).map fun u =>
    { s with
      data := u.data
      content := copyContents (u.copies.map fun c => (c.dst, c.src)) content }

/-- One action, with no result where the source fails an assertion. -/
def CoherencyState.act (B : EventBackend E) (s : CoherencyState E V) :
    CoherencyAction E V → Option (CoherencyState E V)
  | .findInstance place => some { s with data := (s.data.findInstanceId place).2 }
  | .access id size mode prereqs copyDone junk v =>
    (fetchInstance B id size mode prereqs copyDone junk s).map fun s' =>
      if mode = .read then s'
      else { s' with content := Function.update s'.content id v, value := some v }
  | .reclaim id copyDone =>
    (s.data.doReclaim B copyDone id).map fun u =>
      { s with
        data := u.data
        content := copyContents (u.copies.map fun c => (c.dst, c.src)) s.content }
  | .adopt place startEvents view =>
    (s.data.adoptSharedInstance B startEvents place).map fun (id, d) =>
      { s with data := d, content := Function.update s.content id view }

/-- A logical data as it is created: from an instance, or from a shape. -/
inductive CoherencyState.Initial : CoherencyState E V → Prop
  | ofInstance (place : DataPlace) (startEvents : List E) (content : ℕ → V) {m : MsirStateId}
      (hm : m = .modified ∨ m = .shared) :
      Initial
        { data :=
            { count := 1
              inst := fun i => if i = 0 then
                  { used := true, dplace := place, msir := m, allocated := true,
                    readPrereq := startEvents }
                else {}
              referenceInstanceId := some 0 }
          content := content
          value := some (content 0) }
  | ofShape (content : ℕ → V) : Initial { data := {}, content := content, value := none }

/-- Anything at all: accesses to any instance, reclaims of any allocated one, and adoptions. -/
def AnyUse (s : CoherencyState E V) : CoherencyAction E V → Prop
  | .findInstance _ => True
  | .access id _ mode _ _ _ _ => id < s.data.count ∧ mode.IsPlain
  | .reclaim id _ => id < s.data.count ∧ (s.data.inst id).allocated
  | .adopt .. => True

/-- The use the operations are made for: reclaims only of reclaimable instances, and adoptions
only while the reference instance is valid, of a view with the contents of the data. -/
def DesignedUse (s : CoherencyState E V) : CoherencyAction E V → Prop
  | .findInstance _ => True
  | .access id _ mode _ _ _ _ => id < s.data.count ∧ mode.IsPlain
  | .reclaim id _ =>
    id < s.data.count ∧ (s.data.inst id).allocated ∧ (s.data.inst id).reclaimable
  | .adopt _ _ view =>
    (∀ ref, s.data.referenceInstanceId = some ref → s.data.msir ref ≠ .invalid) ∧
      s.value = some view

/-- The runs of a logical data under some use. -/
def coherency (B : EventBackend E) (use : CoherencyState E V → CoherencyAction E V → Prop) :
    Lts (CoherencyState E V) (CoherencyAction E V) where
  init := CoherencyState.Initial
  step s a s' := use s a ∧ s.act B a = some s'

end Run

/-! ## 4. The invariant -/

/-- **The invariant of a run.** -/
structure CoherencyInv (s : CoherencyState E V) : Prop where
  coherent : Coherent s.data.msir s.content s.value
  range : ∀ i, s.data.msir i ≠ .invalid → i < s.data.count
  /-- Valid instances have memory. -/
  owned : ∀ i, s.data.msir i ≠ .invalid → (s.data.inst i).allocated
  /-- The reference instance is slot 0 and is never reclaimed. -/
  reference : ∀ ref, s.data.referenceInstanceId = some ref →
    ref = 0 ∧ 0 < s.data.count ∧ (s.data.inst 0).allocated ∧ (s.data.inst 0).reclaimable = false
  /-- A reclaimable shared instance is not the last one. -/
  paired : ∀ i, s.data.msir i = .shared → (s.data.inst i).reclaimable →
    ∃ j, j ≠ i ∧ s.data.msir j ≠ .invalid

theorem CoherencyInv.init {s : CoherencyState E V} (h : s.Initial) : CoherencyInv s := by
  cases h with
  | @ofInstance place startEvents content m hm =>
    have hzero : ∀ i, (if i = 0 then m else MsirStateId.invalid) ≠ .invalid → i = 0 := by
      intro i hi
      by_contra hne
      simp [hne] at hi
    have hmsir : LogicalData.msir
          { count := 1
            inst := fun i => if i = 0 then
                { used := true, dplace := place, msir := m, allocated := true,
                  readPrereq := startEvents }
              else {}
            referenceInstanceId := some 0 }
        = fun i => if i = 0 then m else .invalid := by
      funext i
      by_cases hi : i = 0 <;> simp [LogicalData.msir, hi]
    refine ⟨?_, ?_, ?_, ?_, ?_⟩ <;> simp only [hmsir]
    · refine ⟨fun i => ?_, fun i hi j hj => ?_, fun i hi => ?_, fun _ => ⟨0, ?_⟩⟩
      · rcases hm with rfl | rfl <;> split <;> simp
      · have hi0 := hzero i (by simp [hi])
        simp [hi0 ▸ hj]
      · rw [hzero i hi]
      · rcases hm with rfl | rfl <;> simp
    · intro i hi
      simp [hzero i hi]
    · intro i hi
      simp [hzero i hi]
    · rintro ref href
      simp_all
    · intro i hi hrec
      rw [hzero i (by simp [hi])] at hrec
      simp at hrec
  | ofShape content =>
    refine ⟨⟨?_, ?_, ?_, ?_⟩, ?_, ?_, ?_, ?_⟩ <;> simp [LogicalData.msir]

/-- What looking up an instance can change: only which slots are in use, and where. -/
structure Found (d : LogicalData E) (r : ℕ × LogicalData E) : Prop where
  msir : r.2.msir = d.msir
  lt : r.1 < r.2.count
  count : d.count ≤ r.2.count
  reference : r.2.referenceInstanceId = d.referenceInstanceId
  allocated : ∀ i < d.count, (r.2.inst i).allocated = (d.inst i).allocated
  reclaimable : ∀ i < d.count, (r.2.inst i).reclaimable = (d.inst i).reclaimable

theorem findUnusedInstanceId_found {d : LogicalData E} (place : DataPlace)
    (hrange : ∀ i, d.msir i ≠ .invalid → i < d.count) :
    Found d (d.findUnusedInstanceId place) := by
  unfold LogicalData.findUnusedInstanceId
  split
  · rename_i i hfind
    have hlt : i < d.count := by simpa using List.mem_of_find?_eq_some hfind
    refine ⟨?_, hlt, le_refl _, rfl, fun j _ => ?_, fun j _ => ?_⟩
    · funext j
      by_cases hj : j = i <;> simp [LogicalData.msir, hj]
    · by_cases hj : j = i <;> simp [hj]
    · by_cases hj : j = i <;> simp [hj]
  · refine ⟨?_, Nat.lt_succ_self _, Nat.le_succ _, rfl, fun j hj => ?_, fun j hj => ?_⟩
    · funext j
      by_cases hj : j = d.count
      · have hinv : d.msir j = .invalid := by
          by_contra hne
          exact absurd (hrange j hne) (by simp [hj])
        rw [hinv]
        simp [LogicalData.msir, hj]
      · simp [LogicalData.msir, hj]
    · simp [hj.ne]
    · simp [hj.ne]

theorem findInstanceId_found {d : LogicalData E} (place : DataPlace)
    (hrange : ∀ i, d.msir i ≠ .invalid → i < d.count) : Found d (d.findInstanceId place) := by
  unfold LogicalData.findInstanceId
  split
  · rename_i i hfind
    have hlt : i < d.count := by simpa using List.mem_of_find?_eq_some hfind
    exact ⟨rfl, hlt, le_refl _, rfl, fun _ _ => rfl, fun _ _ => rfl⟩
  · exact findUnusedInstanceId_found place hrange

theorem CoherencyInv.found {s : CoherencyState E V} (hinv : CoherencyInv s)
    {r : ℕ × LogicalData E} (hf : Found s.data r) : CoherencyInv { s with data := r.2 } := by
  refine ⟨?_, ?_, ?_, ?_, ?_⟩ <;> simp only [hf.msir, hf.reference]
  · exact hinv.coherent
  · intro i hi
    exact lt_of_lt_of_le (hinv.range i hi) hf.count
  · intro i hi
    rw [hf.allocated i (hinv.range i hi)]
    exact hinv.owned i hi
  · intro ref href
    obtain ⟨h0, hpos, hall, hrec⟩ := hinv.reference ref href
    rw [hf.allocated 0 hpos, hf.reclaimable 0 hpos]
    exact ⟨h0, lt_of_lt_of_le hpos hf.count, hall, hrec⟩
  · intro i hi hrec
    rw [hf.reclaimable i (hinv.range i (by simp [hi]))] at hrec
    exact hinv.paired i hi hrec

/-- Allocating the memory of an instance keeps the invariant, whatever the memory holds: the
instance was invalid, since it had none. -/
theorem CoherencyInv.depAllocate {s : CoherencyState E V} (hinv : CoherencyInv s) (id size : ℕ)
    (prereqs : List E) (junk : V) :
    CoherencyInv
        { s with
          data := (s.data.depAllocate id size prereqs).1
          content := if (s.data.inst id).allocated then s.content
            else Function.update s.content id junk } ∧
      ((s.data.depAllocate id size prereqs).1.inst id).allocated ∧
      (s.data.depAllocate id size prereqs).1.count = s.data.count := by
  by_cases hall : (s.data.inst id).allocated
  · simp only [LogicalData.depAllocate, hall, if_true, and_true]
    exact hinv
  · have hbad : s.data.msir id = .invalid := by
      by_contra hne
      exact hall (hinv.owned id hne)
    have hmsir : LogicalData.msir (s.data.modify id fun n =>
        { n with allocatedSize := size, allocated := true, reclaimable := true })
        = s.data.msir := by
      funext i
      by_cases hi : i = id <;> simp [LogicalData.msir, hi]
    have hne : ∀ i, s.data.msir i ≠ .invalid → i ≠ id := by
      rintro i hi rfl
      exact hi hbad
    simp only [LogicalData.depAllocate, hall, Bool.false_eq_true, if_false]
    refine ⟨⟨?_, ?_, ?_, ?_, ?_⟩, by simp, by simp⟩ <;>
      simp only [hmsir, LogicalData.modify_count, LogicalData.modify_referenceInstanceId]
    · obtain ⟨hno, huniq, hholds, hex⟩ := hinv.coherent
      refine ⟨hno, huniq, fun i hi => ?_, hex⟩
      rw [Function.update_of_ne (hne i hi)]
      exact hholds i hi
    · exact hinv.range
    · intro i hi
      simpa [hne i hi] using hinv.owned i hi
    · intro ref href
      obtain ⟨h0, hpos, hall0, hrec⟩ := hinv.reference ref href
      have hid : 0 ≠ id := by
        rintro rfl
        exact hall hall0
      simp [h0, hpos, hid, hall0, hrec]
    · intro i hi hrec
      have hi' := hne i (by simp [hi])
      exact hinv.paired i hi (by simpa [hi'] using hrec)

section Steps

variable [LinearOrder E] {B : EventBackend E} {s s' : CoherencyState E V} {id size : ℕ}
  {mode : AccessMode} {prereqs copyDone : List E} {junk : V}

omit [LinearOrder E] in
/-- A state whose table differs from a good one only in MSI states and events is good as soon as
the new states are coherent, in range and owned, and shared ones come in pairs. -/
theorem CoherencyInv.of_sameTable {t t' : CoherencyState E V} (hinv : CoherencyInv t)
    (hsame : SameTable t.data t'.data) (hcoh : Coherent t'.data.msir t'.content t'.value)
    (hvalid : ∀ i, t'.data.msir i ≠ .invalid → i < t.data.count ∧ (t.data.inst i).allocated)
    (hpair : ∀ i, t'.data.msir i = .shared → (t.data.inst i).reclaimable →
      ∃ j, j ≠ i ∧ t'.data.msir j ≠ .invalid) : CoherencyInv t' := by
  refine ⟨hcoh, fun i hi => ?_, fun i hi => ?_, fun ref href => ?_, fun i hi hrec => ?_⟩
  · rw [hsame.count]
    exact (hvalid i hi).1
  · rw [hsame.allocated]
    exact (hvalid i hi).2
  · rw [hsame.reference] at href
    rw [hsame.count, hsame.allocated, hsame.reclaimable]
    exact hinv.reference ref href
  · rw [hsame.reclaimable] at hrec
    exact hpair i hi hrec

/-- **Fetching an instance to read it** yields the value of the data and keeps the invariant. -/
theorem fetchInstance_read (hinv : CoherencyInv s) (hid : id < s.data.count)
    (h : fetchInstance B id size .read prereqs copyDone junk s = some s') :
    CoherencyInv s' ∧ s'.value = s.value ∧ s.value = some (s'.content id) := by
  have hplain : AccessMode.read.IsPlain := by simp [AccessMode.IsPlain]
  obtain ⟨hinv₁, hall, hcount⟩ := hinv.depAllocate id size prereqs junk
  simp only [fetchInstance, Option.map_eq_some_iff] at h
  obtain ⟨u, hu, rfl⟩ := h
  have hredux := hinv₁.coherent.no_reduction id
  have heff := enforceMsiProtocol_effect hplain hredux hu
  obtain ⟨hcoh, hval⟩ := heff.coherent_read hinv₁.coherent
  refine ⟨?_, rfl, hval⟩
  refine hinv₁.of_sameTable (enforceMsiProtocol_sameTable hplain hredux hu) hcoh ?_ ?_
  · intro i hi
    by_cases hii : i = id
    · rw [hii]
      exact ⟨by rw [hcount]; exact hid, hall⟩
    · have hold : LogicalData.msir (s.data.depAllocate id size prereqs).1 i ≠ .invalid := by
        generalize u.data.msir = m' at heff hi
        generalize u.copies.map _ = cs at heff
        cases heff with
        | readHit => exact hi
        | readMiss =>
          intro hinvalid
          simp [hii, hinvalid] at hi
        | writeHit hw => exact absurd rfl hw
        | writeUpgrade hw => exact absurd rfl hw
        | writeMiss hw => simp at hw
        | overwrite hw => simp at hw
      exact ⟨hinv₁.range i hold, hinv₁.owned i hold⟩
  · intro i hi hrec
    generalize u.data.msir = m' at heff hi ⊢
    generalize u.copies.map _ = cs at heff
    cases heff with
    | readHit => exact hinv₁.paired i hi hrec
    | @readMiss src hm hsrc =>
      by_cases hii : i = id
      · refine ⟨src, ?_, by simp [hsrc]⟩
        rintro rfl
        exact hsrc (hii ▸ hm)
      · exact ⟨id, Ne.symm hii, by simp⟩
    | writeHit hw => exact absurd rfl hw
    | writeUpgrade hw => exact absurd rfl hw
    | writeMiss hw => simp at hw
    | overwrite hw => simp at hw

/-- **Fetching an instance to modify it** yields the value of the data where the mode keeps the
old contents, and whatever is then written, the invariant holds. -/
theorem fetchInstance_write (hinv : CoherencyInv s) (hid : id < s.data.count)
    (hplain : mode.IsPlain) (hmode : mode ≠ .read)
    (h : fetchInstance B id size mode prereqs copyDone junk s = some s') :
    (mode ≠ .write → mode ≠ .reduce → s.value = some (s'.content id)) ∧
      ∀ v, CoherencyInv { s' with content := Function.update s'.content id v, value := some v } := by
  obtain ⟨hinv₁, hall, hcount⟩ := hinv.depAllocate id size prereqs junk
  simp only [fetchInstance, Option.map_eq_some_iff] at h
  obtain ⟨u, hu, rfl⟩ := h
  have hredux := hinv₁.coherent.no_reduction id
  obtain ⟨hval, hm'⟩ :=
    (enforceMsiProtocol_effect hplain hredux hu).coherent_write hinv₁.coherent hmode
  refine ⟨hval, fun v => ?_⟩
  refine hinv₁.of_sameTable (enforceMsiProtocol_sameTable hplain hredux hu) ?_ ?_ ?_
  · have hcoh := coherent_onlyModified id
      (Function.update (copyContents (u.copies.map fun c => (c.dst, c.src))
        (if (s.data.inst id).allocated then s.content
          else Function.update s.content id junk)) id v)
    rw [Function.update_self] at hcoh
    rw [hm']
    exact hcoh
  · intro i hi
    have hii : i = id := by
      by_contra hne
      simp [hm', onlyModified, hne] at hi
    rw [hii]
    exact ⟨by rw [hcount]; exact hid, hall⟩
  · intro i hi
    rw [hm', onlyModified] at hi
    split at hi <;> simp at hi

omit [LinearOrder E] in
/-- Giving back the memory and the slot of an invalid, reclaimable instance keeps the invariant. -/
theorem CoherencyInv.release {t : CoherencyState E V} (hinv : CoherencyInv t)
    (hbad : t.data.msir id = .invalid) (hrec : (t.data.inst id).reclaimable) :
    CoherencyInv { t with
      data := t.data.modify id fun n => { n with allocated := false, used := false } } := by
  have hmsir : LogicalData.msir (t.data.modify id fun n =>
      { n with allocated := false, used := false }) = t.data.msir := by
    funext i
    by_cases hi : i = id <;> simp [LogicalData.msir, hi]
  refine ⟨?_, ?_, ?_, ?_, ?_⟩ <;>
    simp only [hmsir, LogicalData.modify_count, LogicalData.modify_referenceInstanceId]
  · exact hinv.coherent
  · exact hinv.range
  · intro i hi
    have hne : i ≠ id := by
      rintro rfl
      exact hi hbad
    simpa [hne] using hinv.owned i hi
  · intro ref href
    obtain ⟨h0, hpos, hall, hrec0⟩ := hinv.reference ref href
    have hne : 0 ≠ id := by
      rintro rfl
      simp [hrec0] at hrec
    simp [h0, hpos, hall, hrec0, hne]
  · intro i hi hri
    refine hinv.paired i hi ?_
    by_cases hii : i = id
    · rw [hii]
      exact hrec
    · simpa [hii] using hri

/-- The reclaimed instance is invalid afterwards, and no instance but slot 0 becomes valid. -/
theorem ReclaimEffect.valid {m m' : ℕ → MsirStateId} {copies : List (ℕ × ℕ)}
    (h : ReclaimEffect m id m' copies) :
    m' id = .invalid ∧ ∀ i, m' i ≠ .invalid → m i ≠ .invalid ∨ (i = 0 ∧ copies ≠ []) := by
  cases h with
  | invalid hm => exact ⟨hm, fun i hi => Or.inl hi⟩
  | modified hm =>
    refine ⟨by simp, fun i hi => ?_⟩
    by_cases h0 : i = 0
    · exact Or.inr ⟨h0, by simp⟩
    · refine Or.inl fun hinv => hi ?_
      simp [h0, hinv]
  | @last j hm hj hv _ =>
    refine ⟨by simp [onlyModified, Ne.symm hj], fun i hi => Or.inl ?_⟩
    have hij : i = j := by
      by_contra hne
      simp [onlyModified, hne] at hi
    rw [hij]
    exact hv
  | others hm hmore =>
    refine ⟨by simp, fun i hi => Or.inl fun hinv => hi ?_⟩
    simp [hinv]

theorem reclaimUpdateState_copies {d : LogicalData E} {u : Update E}
    (h : d.reclaimUpdateState B copyDone id prereqs = some u) :
    ∀ c ∈ u.copies.map fun c => (c.dst, c.src), d.referenceInstanceId = some c.1 := by
  unfold LogicalData.reclaimUpdateState at h
  split at h
  · obtain rfl : _ = u := Option.some.inj h
    simp
  · unfold LogicalData.reclaimModified at h
    split at h
    · exact absurd h (by simp)
    · rename_i ref href
      obtain rfl : _ = u := Option.some.inj h
      simpa using href
  · obtain rfl : _ = u := Option.some.inj h
    simp [LogicalData.reclaimShared]
  · exact absurd h (by simp)

/-- Once the data has a value, fetching any instance goes through. -/
theorem fetchInstance_total (B : EventBackend E) (id size : ℕ) (prereqs copyDone : List E)
    (junk : V) (hinv : CoherencyInv s) (hplain : mode.IsPlain) (hvalue : s.value ≠ none) :
    ∃ s', fetchInstance B id size mode prereqs copyDone junk s = some s' := by
  obtain ⟨hinv₁, -, -⟩ := hinv.depAllocate id size prereqs junk
  obtain ⟨i, hi⟩ := hinv₁.coherent.exists_valid hvalue
  obtain ⟨u, hu⟩ := enforceMsiProtocol_total B copyDone (s.data.depAllocate id size prereqs).2
    hplain (hinv₁.coherent.no_reduction id) (hinv₁.range i hi) hi
  exact ⟨_, Option.map_eq_some_iff.mpr ⟨u, hu, rfl⟩⟩

/-- **Reclaiming a reclaimable instance** keeps the invariant. -/
theorem CoherencyInv.reclaim (hinv : CoherencyInv s) (hrec : (s.data.inst id).reclaimable)
    {u : Update E} (h : s.data.doReclaim B copyDone id = some u) :
    CoherencyInv { s with
      data := u.data
      content := copyContents (u.copies.map fun c => (c.dst, c.src)) s.content } := by
  unfold LogicalData.doReclaim at h
  split at h
  · exact absurd h (by simp)
  · rename_i w hw
    split at h
    · obtain rfl : _ = u := Option.some.inj h
      have heff := reclaimUpdateState_effect hinv.range hw
      have hsame := reclaimUpdateState_sameTable hw
      have hcopies := reclaimUpdateState_copies hw
      have href : ∀ c ∈ w.copies.map fun c => (c.dst, c.src), c.1 = 0 ∧ id ≠ 0 := by
        intro c hc
        obtain ⟨h0, -, -, hrec0⟩ := hinv.reference c.1 (hcopies c hc)
        refine ⟨h0, ?_⟩
        rintro rfl
        simp [hrec0] at hrec
      have hcoh := heff.coherent hinv.coherent (fun hm => hinv.paired id hm hrec) href
      refine CoherencyInv.release (t := { s with
        data := w.data
        content := copyContents (w.copies.map fun c => (c.dst, c.src)) s.content }) ?_
        heff.valid.1 (by simpa [hsame.reclaimable] using hrec)
      refine hinv.of_sameTable hsame hcoh ?_ ?_
      · intro i hi
        rcases heff.valid.2 i hi with hold | ⟨rfl, hne⟩
        · exact ⟨hinv.range i hold, hinv.owned i hold⟩
        · obtain ⟨c, hc⟩ := List.exists_mem_of_ne_nil _ hne
          obtain ⟨-, hpos, hall, -⟩ := hinv.reference c.1 (hcopies c hc)
          exact ⟨hpos, hall⟩
      · intro i hi hri
        generalize w.data.msir = m' at heff hi ⊢
        generalize w.copies.map _ = cs at heff
        cases heff with
        | invalid => exact hinv.paired i hi hri
        | modified hm =>
          by_cases hii : i = id
          · simp [hii] at hi
          · by_cases h0 : i = 0
            · simp [h0] at hi
              split at hi <;> simp at hi
            · simp [hii, h0, hinv.coherent.unique id hm i hii] at hi
        | last =>
          simp only [onlyModified] at hi
          split at hi <;> simp at hi
        | others hm hmore =>
          have hv : i ≠ id ∧ s.data.msir i ≠ .invalid := by
            by_contra hne
            simp [hne] at hi
          obtain ⟨j, hj, hji, hjv⟩ := hmore i hv.1 hv.2
          exact ⟨j, hji, by simp [hj, hjv]⟩
    · exact absurd h (by simp)

omit [LinearOrder E] in
theorem Coherent.shared_of_ne {m : ℕ → MsirStateId} {content : ℕ → V} {value : Option V}
    (hc : Coherent m content value) {i j : ℕ} (hi : m i ≠ .invalid) (hj : m j ≠ .invalid)
    (hne : i ≠ j) : m i = .shared := by
  cases hm : m i with
  | invalid => exact absurd hm hi
  | shared => rfl
  | reduction => exact absurd hm (hc.no_reduction i)
  | modified => exact absurd (hc.unique i hm j (Ne.symm hne)) hj

/-- The states after an adoption: the adopted instance and all valid ones are shared. -/
theorem adoptSharedInstance_msir {d : LogicalData E} {content : ℕ → V} {value : Option V}
    (hc : Coherent d.msir content value) (hrange : ∀ i, d.msir i ≠ .invalid → i < d.count)
    {place : DataPlace} {startEvents : List E} {r : ℕ × LogicalData E} {ref : ℕ}
    (href : d.referenceInstanceId = some ref) (hvalid : d.msir ref ≠ .invalid)
    (h : d.adoptSharedInstance B startEvents place = some r) :
    r.1 = (d.findInstanceId place).1 ∧
      r.2.msir = fun i => if i = r.1 ∨ d.msir i ≠ .invalid then .shared else .invalid := by
  have hf := findInstanceId_found place hrange
  simp only [LogicalData.adoptSharedInstance, LogicalData.modify_referenceInstanceId,
    hf.reference, href, Option.some.injEq] at h
  subst h
  refine ⟨rfl, ?_⟩
  funext i
  have hmi : ((d.findInstanceId place).2.inst i).msir = d.msir i := congrFun hf.msir i
  by_cases hid : i = (d.findInstanceId place).1
  · by_cases hir : i = ref <;> simp [LogicalData.msir, hid]
  · by_cases hir : i = ref
    · -- the reference instance is downgraded if it was modified
      have hvi : d.msir i ≠ .invalid := hir ▸ hvalid
      have hno := hc.no_reduction i
      cases hm : d.msir i <;> simp_all [LogicalData.msir]
    · by_cases hvi : d.msir i = .invalid
      · rw [hvi] at hmi
        simp only [LogicalData.msir] at hvi
        simp [LogicalData.msir, hid, hir, hmi, hvi]
      · have hsh := hc.shared_of_ne hvi hvalid hir
        rw [hsh] at hmi
        simp only [LogicalData.msir] at hsh
        simp [LogicalData.msir, hid, hir, hmi, hsh]

/-- **Adopting a view with the contents of the data**, while the reference instance is valid,
keeps the invariant. -/
theorem CoherencyInv.adopt (hinv : CoherencyInv s) {place : DataPlace} {startEvents : List E}
    {view : V} {r : ℕ × LogicalData E} (hview : s.value = some view)
    (hvalid : ∀ ref, s.data.referenceInstanceId = some ref → s.data.msir ref ≠ .invalid)
    (h : s.data.adoptSharedInstance B startEvents place = some r) :
    CoherencyInv { s with data := r.2, content := Function.update s.content r.1 view } := by
  have hf := findInstanceId_found place hinv.range
  have hinv₁ := hinv.found hf
  cases href : s.data.referenceInstanceId with
  | none =>
    simp [LogicalData.adoptSharedInstance, hf.reference, href] at h
  | some ref =>
    have hrv := hvalid ref href
    obtain ⟨hr1, hm'⟩ := adoptSharedInstance_msir hinv.coherent hinv.range href hrv h
    obtain ⟨hr0, hpos, hall0, hrec0⟩ := hinv₁.reference ref (by simpa [hf.reference] using href)
    -- what is left of the table
    have htable : r.2.count = (s.data.findInstanceId place).2.count ∧
        r.2.referenceInstanceId = some ref ∧
        ∀ i, (r.2.inst i).allocated
              = (if i = r.1 then true else ((s.data.findInstanceId place).2.inst i).allocated) ∧
          (r.2.inst i).reclaimable
              = (if i = r.1 then false
                  else ((s.data.findInstanceId place).2.inst i).reclaimable) := by
      simp only [LogicalData.adoptSharedInstance, LogicalData.modify_referenceInstanceId,
        hf.reference, href, Option.some.injEq] at h
      subst h
      refine ⟨rfl, ?_, fun i => ?_⟩
      · simp [hf.reference, href]
      · by_cases hi : i = (s.data.findInstanceId place).1 <;> by_cases hir : i = ref <;>
          simp_all
    obtain ⟨hcount, hreference, hflags⟩ := htable
    refine ⟨?_, ?_, ?_, ?_, ?_⟩ <;> simp only [hm']
    · refine ⟨fun i => ?_, fun i hi => ?_, fun i hi => ?_, fun _ => ⟨r.1, by simp⟩⟩
      · split <;> simp
      · split at hi <;> simp at hi
      · by_cases hi1 : i = r.1
        · rw [hi1, Function.update_self, hview]
        · rw [Function.update_of_ne hi1]
          refine hinv.coherent.holds i fun hinvalid => hi ?_
          simp [hi1, hinvalid]
    · intro i hi
      by_cases hi1 : i = r.1
      · rw [hi1, hr1, hcount]
        exact hf.lt
      · have hv : s.data.msir i ≠ .invalid := fun hinvalid => hi (by simp [hi1, hinvalid])
        rw [hcount]
        exact lt_of_lt_of_le (hinv.range i hv) hf.count
    · intro i hi
      rw [(hflags i).1]
      by_cases hi1 : i = r.1
      · simp [hi1]
      · have hv : s.data.msir i ≠ .invalid := fun hinvalid => hi (by simp [hi1, hinvalid])
        simp only [hi1, if_false]
        exact hinv₁.owned i (by simpa [hf.msir] using hv)
    · intro ref' href'
      have hsame : ref = ref' := by simpa [hreference] using href'
      refine ⟨hsame ▸ hr0, by rw [hcount]; exact hpos, ?_, ?_⟩
      · rw [(hflags 0).1]
        split
        · rfl
        · exact hall0
      · rw [(hflags 0).2]
        split
        · rfl
        · exact hrec0
    · intro i _ hrec
      have hne : i ≠ r.1 := by
        rintro rfl
        simp [(hflags r.1).2] at hrec
      exact ⟨r.1, Ne.symm hne, by simp⟩

/-- **One action of a designed use** keeps the invariant. -/
theorem CoherencyInv.step (hinv : CoherencyInv s) {a : CoherencyAction E V}
    (huse : DesignedUse s a) (h : s.act B a = some s') : CoherencyInv s' := by
  cases a with
  | findInstance place =>
    obtain rfl : _ = s' := Option.some.inj h
    exact hinv.found (findInstanceId_found place hinv.range)
  | access id size mode prereqs copyDone junk v =>
    obtain ⟨t, ht, rfl⟩ := Option.map_eq_some_iff.mp h
    by_cases hread : mode = .read
    · subst hread
      simpa using (fetchInstance_read hinv huse.1 ht).1
    · simpa [hread] using (fetchInstance_write hinv huse.1 huse.2 hread ht).2 v
  | reclaim id copyDone =>
    obtain ⟨u, hu, rfl⟩ := Option.map_eq_some_iff.mp h
    exact hinv.reclaim huse.2.2 hu
  | adopt place startEvents view =>
    obtain ⟨r, hr, rfl⟩ := Option.map_eq_some_iff.mp h
    exact hinv.adopt huse.2 huse.1 hr

/-- The invariant holds in every state of every run of a designed use. -/
theorem coherencyInv_of_reachable (h : (coherency B DesignedUse).Reachable s) :
    CoherencyInv s := by
  refine Lts.Reachable.invariant (P := CoherencyInv) ?_ ?_ h
  · intro t ht
    exact CoherencyInv.init ht
  · intro t a t' hinv hst
    exact hinv.step hst.1 hst.2

end Steps

/-! ## 5. Coherency -/

/-- **Coherency.**  In every state reached by accesses to any instance in any mode, by reclaims of
reclaimable instances and by adoptions made while the reference instance is valid: a modified
instance excludes all others; all shared instances hold the same contents; the source of a copy
is a valid instance; and once the data has a value some instance is valid, and fetching any
instance in any mode that keeps the contents goes through and yields that value. -/
theorem coherency_invariant [LinearOrder E] (B : EventBackend E) (s : CoherencyState E V)
    (h : (coherency B DesignedUse).Reachable s) :
    (∀ i j, s.data.msir i = .modified → j ≠ i → s.data.msir j = .invalid) ∧
    (∀ i j, s.data.msir i = .shared → s.data.msir j = .shared → s.content i = s.content j) ∧
    (∀ src, s.data.findSourceInstanceId = some src →
      (s.data.msir src = .modified ∨ s.data.msir src = .shared) ∧
        s.value = some (s.content src)) ∧
    (∀ v, s.value = some v →
      (∃ i, i < s.data.count ∧ (s.data.msir i = .modified ∨ s.data.msir i = .shared)) ∧
      ∀ id mode size prereqs copyDone junk, id < s.data.count →
        mode = .read ∨ mode = .rw ∨ mode = .reduceNoInit →
        ∃ s', fetchInstance B id size mode prereqs copyDone junk s = some s' ∧
          s'.content id = v) := by
  have hinv := coherencyInv_of_reachable h
  have hcoh := hinv.coherent
  have hstate : ∀ i, s.data.msir i ≠ .invalid → s.data.msir i = .modified ∨ s.data.msir i = .shared := by
    intro i hi
    have hno := hcoh.no_reduction i
    cases hm : s.data.msir i <;> simp_all
  refine ⟨fun i j hi hj => hcoh.unique i hi j hj, fun i j hi hj => ?_, fun src hsrc => ?_,
    fun v hv => ⟨?_, ?_⟩⟩
  · have hi' := hcoh.holds i (by simp [hi])
    rw [hcoh.holds j (by simp [hj])] at hi'
    exact (Option.some.inj hi').symm
  · have hvalid := (LogicalData.findSourceInstanceId_some hsrc).2
    exact ⟨hstate src hvalid, hcoh.holds src hvalid⟩
  · obtain ⟨i, hi⟩ := hcoh.exists_valid (by simp [hv])
    exact ⟨i, hinv.range i hi, hstate i hi⟩
  · intro id mode size prereqs copyDone junk hid hmode
    have hplain : mode.IsPlain := by rcases hmode with rfl | rfl | rfl <;> simp [AccessMode.IsPlain]
    obtain ⟨s', hs'⟩ :=
      fetchInstance_total B id size prereqs copyDone junk hinv hplain (by simp [hv])
    refine ⟨s', hs', ?_⟩
    have hval : s.value = some (s'.content id) := by
      rcases hmode with rfl | rfl | rfl
      · exact (fetchInstance_read hinv hid hs').2.2
      · exact (fetchInstance_write hinv hid hplain (by simp) hs').1 (by simp) (by simp)
      · exact (fetchInstance_write hinv hid hplain (by simp) hs').1 (by simp) (by simp)
    rw [hv] at hval
    exact (Option.some.inj hval).symm

/-- A data on the host, written on a device and then read on the host again: the value on the host
is the one written. -/
theorem coherency_invariant_writeRead :
    ∃ s : CoherencyState ℕ ℕ, (coherency .plain DesignedUse).Reachable s ∧ s.value = some 7 ∧
      ∀ size prereqs copyDone junk,
        ∃ s', fetchInstance .plain 0 size .read prereqs copyDone junk s = some s' ∧
          s'.content 0 = 7 := by
  have hreach : (coherency (.plain : EventBackend ℕ) DesignedUse).Reachable _ :=
    .step (.step (.init (.ofInstance .host [] (fun _ => 5) (Or.inl rfl)))
      (a := .findInstance (.device 0)) ⟨trivial, rfl⟩)
      (a := .access 1 8 .write [] [] 0 7) ⟨⟨by decide, by decide⟩, rfl⟩
  refine ⟨_, hreach, rfl, fun size prereqs copyDone junk => ?_⟩
  obtain ⟨-, -, -, hread⟩ := coherency_invariant .plain _ hreach
  exact (hread 7 rfl).2 0 .read size prereqs copyDone junk (by decide) (Or.inl rfl)

/-- **A view adopted after a write elsewhere breaks coherency**: the data is written on one device
and a view of its old contents adopted on another, which is then shared next to the modified
instance, with other contents. -/
theorem adopt_after_write_incoherent :
    ∃ s : CoherencyState ℕ ℕ, (coherency .plain AnyUse).Reachable s ∧
      s.data.msir 1 = .modified ∧ s.data.msir 2 = .shared ∧
      s.value = some (s.content 1) ∧ s.content 2 ≠ s.content 1 :=
  ⟨_, .step (.step (.step (.init (.ofInstance .host [] (fun _ => 5) (Or.inl rfl)))
      (a := .findInstance (.device 0)) ⟨trivial, rfl⟩)
      (a := .access 1 8 .write [] [] 0 7) ⟨⟨by decide, by decide⟩, rfl⟩)
      (a := .adopt (.device 1) [] 5) ⟨trivial, rfl⟩, rfl, rfl, rfl, by decide⟩

end Cccl.Stf
