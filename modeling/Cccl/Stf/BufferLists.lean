/-
# What the record and the instance lists know of a buffer

Every operation on a buffer stays known until it does not matter any more.  The invariant
(`ListInv`) says where: each operation on the present buffer of an instance comes before what the
lists of the instance and the record make the next writer of the buffer wait for (`touched`); if the
instance is valid, each operation that wrote it comes before what the next reader waits for
(`written`); and whatever is not in the instance's own read list is known to the record (`known`),
which is why a write-back need not look at the write list.

Reads keep all this by themselves.  So does reclaiming.  An access that writes does where nothing is
lost by it, and in no other way do lists get shorter.
-/
import Cccl.Stf.TaskFlow

namespace Cccl.Stf

variable {E : Type*}

/-! ## 1. The record -/

section Record

variable {R : E → E → Prop}

/-- What is needed of the record: it is in one of two modes, and a writer waits for at least what a
reader waits for. -/
structure RecordOk (R : E → E → Prop) (st : LogicalDataState E) : Prop where
  mode : st.currentMode = .none ∨ st.currentMode = .write
  writer : st.currentMode = .write →
    ∃ w, st.currentWriter = some w ∧ st.currentReaders.donePrereqs = []
  waits : Covered R (readerWaits st) (writerWaits st)

/-- What the record makes a task wait for. -/
def recordWaits (st : LogicalDataState E) (mode : AccessMode) : List E :=
  if mode.isWrite then writerWaits st else readerWaits st

theorem RecordOk.mono {S : E → E → Prop} {st : LogicalDataState E} (h : RecordOk R st)
    (hRS : ∀ e e', R e e' → S e e') : RecordOk S st :=
  ⟨h.mode, h.writer, h.waits.mono hRS⟩

/-- **The record before and after a task.** -/
theorem RecordOk.step [LinearOrder E] [Std.Refl R] [IsTrans E R] {B : EventBackend E}
    (himp : ∀ e e', B.implied e e' → R e e') {st : LogicalDataState E} (h : RecordOk R st)
    {mode : AccessMode} (hmode : mode.IsPlain) (l : List E) :
    ∃ st', enforceStfDepsBefore l [] mode st = some (recordWaits st mode, st') ∧
      ∀ task : Task E, Covered R (recordWaits st mode) task.donePrereqs →
        RecordOk R (enforceStfDepsAfter B task mode st') ∧
        Covered R (writerWaits st) (writerWaits (enforceStfDepsAfter B task mode st')) ∧
        Covered R task.donePrereqs (writerWaits (enforceStfDepsAfter B task mode st')) ∧
        readerWaits (enforceStfDepsAfter B task mode st')
          = if mode.isWrite then task.donePrereqs else readerWaits st := by
  obtain ⟨hnone, hrelaxed⟩ := hmode
  cases hw : mode.isWrite with
  | true =>
    rcases h.mode with hm | hm
    · refine ⟨{ st with currentReaders := {}, currentMode := .write }, ?_, fun task hcov => ?_⟩
      · simp [enforceStfDepsBefore, hrelaxed, hw, hm, recordWaits, writerWaits]
      · rw [recordWaits, if_pos hw] at hcov
        have hafter : enforceStfDepsAfter B task mode
            { st with currentReaders := {}, currentMode := .write }
              = { st with currentReaders := {}, currentMode := .write,
                          currentWriter := some task } := by
          simp [enforceStfDepsAfter, hrelaxed, hw]
        rw [hafter]
        refine ⟨⟨Or.inr rfl, fun _ => ⟨task, rfl, rfl⟩, ?_⟩, ?_, ?_, ?_⟩ <;>
          simp only [readerWaits, writerWaits, if_true]
        · exact Covered.refl _
        · exact hcov
        · exact Covered.refl _
    · obtain ⟨w, hcw, hnil⟩ := h.writer hm
      refine ⟨{ st with previousWriter := some w }, ?_, fun task hcov => ?_⟩
      · simp [enforceStfDepsBefore, hrelaxed, hw, hm, hcw, recordWaits, writerWaits]
      · rw [recordWaits, if_pos hw] at hcov
        have hafter : enforceStfDepsAfter B task mode { st with previousWriter := some w }
              = { st with previousWriter := some w, currentWriter := some task } := by
          simp [enforceStfDepsAfter, hrelaxed, hw]
        rw [hafter]
        refine ⟨⟨Or.inr hm, fun _ => ⟨task, rfl, hnil⟩, ?_⟩, ?_, ?_, ?_⟩ <;>
          simp only [readerWaits, writerWaits, hm, if_true]
        · exact Covered.refl _
        · simpa [writerWaits, hm] using hcov
        · exact Covered.refl _
  | false =>
    rcases h.mode with hm | hm
    · refine ⟨st, ?_, fun task hcov => ?_⟩
      · cases hpw : st.previousWriter <;>
          simp [enforceStfDepsBefore, hrelaxed, hw, hm, hpw, recordWaits, readerWaits]
      · have hadd := TaskSet.add_covers himp st.currentReaders task
        have hafter : enforceStfDepsAfter B task mode st
              = { st with currentReaders := st.currentReaders.add B task } := by
          simp [enforceStfDepsAfter, hrelaxed, hw]
        have hwaits := h.waits
        rw [hafter]
        refine ⟨⟨Or.inl hm, by simp [hm], ?_⟩, ?_, ?_, ?_⟩ <;>
          simp only [readerWaits, writerWaits, hm] at hwaits ⊢
        · exact hwaits.trans hadd.1
        · exact hadd.1
        · exact hadd.2
        · simp
    · obtain ⟨w, hcw, hnil⟩ := h.writer hm
      refine ⟨{ st with previousWriter := some w, currentWriter := none, currentMode := .none },
        ?_, fun task hcov => ?_⟩
      · simp [enforceStfDepsBefore, hrelaxed, hw, hm, hcw, recordWaits, readerWaits]
      · have hadd := TaskSet.add_covers himp st.currentReaders task
        have hafter : enforceStfDepsAfter B task mode
              { st with previousWriter := some w, currentWriter := none, currentMode := .none }
            = { currentMode := .none, currentReaders := st.currentReaders.add B task,
                currentWriter := none, previousWriter := some w } := by
          simp [enforceStfDepsAfter, hrelaxed, hw]
        have hcov' : Covered R w.donePrereqs task.donePrereqs := by
          simpa [recordWaits, hw, readerWaits, hm, hcw] using hcov
        rw [hafter]
        refine ⟨⟨Or.inl rfl, by simp, ?_⟩, ?_, ?_, ?_⟩ <;>
          simp [readerWaits, writerWaits, hm, hcw]
        · exact hcov'.trans hadd.2
        · exact hcov'.trans hadd.2
        · exact hadd.2

/-- What a reclaim waits for first: all that the record makes any task wait for. -/
theorem RecordOk.pending {st : LogicalDataState E} (h : RecordOk R st) :
    writerWaits st ⊆ LogicalData.getPendingDonePrereqs st ∧
      readerWaits st ⊆ LogicalData.getPendingDonePrereqs st := by
  rcases h.mode with hm | hm
  · cases hpw : st.previousWriter <;>
      simp [writerWaits, readerWaits, LogicalData.getPendingDonePrereqs, hm, hpw]
  · obtain ⟨w, hcw, -⟩ := h.writer hm
    simp [writerWaits, readerWaits, LogicalData.getPendingDonePrereqs, hm, hcw]

end Record

/-! ## 2. What an access does to the lists -/

section Lists

variable [LinearOrder E] {B : EventBackend E} {d : LogicalData E} {id : ℕ} {mode : AccessMode}
  {prereqs copyDone : List E} {u : Update E}

/-- The fields of an instance that the protocol leaves alone. -/
structure SameSlot (n n' : DataInstance E) : Prop where
  allocated : n'.allocated = n.allocated
  reclaimable : n'.reclaimable = n.reclaimable

/-- **All that an access that is not a read does to the lists**: those of another instance lose what
is forgotten, but for the source of the copy, where the copy's completion takes the place of what it
waited for. -/
structure WriteLists (d : LogicalData E) (id : ℕ) (mode : AccessMode) (prereqs copyDone : List E)
    (u : Update E) : Prop where
  slot : ∀ i, SameSlot (d.inst i) (u.data.inst i)
  self : (u.data.inst id).msir = .modified
  state : u.data.state = d.state
  count : u.data.count = d.count
  reference : u.data.referenceInstanceId = d.referenceInstanceId
  settled : (∀ i, (d.inst i).msir ≠ .reduction) → ∀ i, (u.data.inst i).msir ≠ .reduction
  valid : ∀ i, i ≠ id → (u.data.inst i).msir ≠ .invalid →
    (d.inst i).msir ≠ .invalid ∧ (u.data.inst i).readPrereq = (d.inst i).readPrereq
  readList : ∀ i, i ≠ id → copySource d id mode ≠ some i →
    (d.inst i).readPrereq ⊆ forgotten d id mode i ++ (u.data.inst i).readPrereq
  writeList : ∀ i, i ≠ id →
    (d.inst i).writePrereq ⊆ forgotten d id mode i ++ (u.data.inst i).writePrereq
  left : ∀ i, i ≠ id → remembered d id i ⊆ (u.data.inst i).writePrereq
  source : (d.inst id).msir = .invalid → copySource d id mode = none →
    mode = .write ∨ mode = .reduce
  copy : match copySource d id mode with
    | some src => src ≠ id ∧ (d.inst src).msir ≠ .invalid ∧
        (u.data.inst src).readPrereq = copyDone ∧ u.prereqs = prereqs ++ copyDone ∧
        u.copies = [⟨id, src, (d.inst src).readPrereq ++ (d.inst id).readPrereq
          ++ (d.inst id).writePrereq ++ prereqs, copyDone⟩]
    | none => u.prereqs = prereqs ++ instanceWaits d id mode ∧ u.copies = []

theorem writeLists (hmode : mode.IsPlain) (hread : mode ≠ .read)
    (hredux : (d.inst id).msir ≠ .reduction)
    (h : d.enforceMsiProtocol B copyDone id mode prereqs = some u) :
    WriteLists d id mode prereqs copyDone u := by
  rcases LogicalData.enforceMsiProtocol_cases hmode hredux h with
    ⟨hr, -⟩ | ⟨src, hr, -⟩ | ⟨-, hm, rfl⟩ | ⟨-, hm, rfl⟩ | ⟨src, hw, hm, hsrc, rfl⟩ |
    ⟨hw, hm, rfl⟩
  · exact absurd hr hread
  · exact absurd hr hread
  · -- a modified instance: nothing changes
    have hsource : copySource d id mode = none := by simp [copySource, hm]
    constructor <;> simp [hm, hsource, instanceWaits, remembered]
    exact fun i => ⟨rfl, rfl⟩
  · -- a shared one: the others forget everything
    have hsource : copySource d id mode = none := by simp [copySource, hm]
    constructor <;> simp [hm, hsource, LogicalData.writeShared, instanceWaits, remembered, forgotten]
    · intro i
      split <;> exact ⟨rfl, rfl⟩
    · intro hset i
      split <;> simp
    · intro i hi
      simp [hi]
  · -- an invalid one whose old contents are needed
    obtain ⟨-, hvalid⟩ := LogicalData.findSourceInstanceId_some hsrc
    have hne : src ≠ id := by
      rintro rfl
      exact hvalid hm
    have hsource : copySource d id mode = some src := by
      rcases hw with rfl | rfl <;> simp [copySource, hm, hsrc]
    constructor
    · intro i
      simp only [LogicalData.writeInvalid, LogicalData.modifyAll_inst, LogicalData.modify_inst]
      split <;> split <;> exact ⟨rfl, rfl⟩
    · simp [LogicalData.writeInvalid]
    · rfl
    · rfl
    · rfl
    · intro _ i
      simp only [LogicalData.writeInvalid, LogicalData.modifyAll_inst]
      split <;> simp
    · intro i hi hv
      simp [LogicalData.writeInvalid, hi] at hv
    · intro i hi hs
      simp [forgotten, hm, hs]
    · intro i hi
      rcases eq_or_ne i src with rfl | his
      · simp [LogicalData.writeInvalid, hi]
      · simp [LogicalData.writeInvalid, hi, his]
    · intro i hi
      rcases eq_or_ne i src with rfl | his
      · simp [LogicalData.writeInvalid, hi, remembered, hm]
      · simp [LogicalData.writeInvalid, hi, his, remembered, hm]
    · simp [hsource]
    · simp [hsource, hne, hvalid, LogicalData.writeInvalid]
  · -- an invalid one that is overwritten
    have hsource : copySource d id mode = none := by
      rcases hw with rfl | rfl <;> simp [copySource]
    constructor
    · exact fun i => ⟨rfl, rfl⟩
    · simp [LogicalData.writeInvalid]
    · rfl
    · rfl
    · rfl
    · intro _ i
      simp only [LogicalData.writeInvalid, LogicalData.modifyAll_inst]
      split <;> simp
    · intro i hi hv
      simp [LogicalData.writeInvalid, hi] at hv
    · intro i hi hs
      simp [forgotten, hm, hsource]
    · intro i hi
      simp [LogicalData.writeInvalid]
    · intro i hi
      simp [LogicalData.writeInvalid, remembered, hm]
    · exact fun _ _ => hw
    · simp [hsource, instanceWaits, hm, LogicalData.writeInvalid]

omit [LinearOrder E] in
theorem WriteLists.prereqs_subset (h : WriteLists d id mode prereqs copyDone u) :
    prereqs ⊆ u.prereqs := by
  have hc := h.copy
  cases hsource : copySource d id mode with
  | some src =>
    simp only [hsource] at hc
    simp [hc.2.2.2.1]
  | none =>
    simp only [hsource] at hc
    simp [hc.1]

omit [LinearOrder E] in
theorem WriteLists.copy_done (h : WriteLists d id mode prereqs copyDone u) {c : Copy E}
    (hc : c ∈ u.copies) : c.done = copyDone := by
  have hcopy := h.copy
  cases hsource : copySource d id mode with
  | some src =>
    simp only [hsource] at hcopy
    rw [hcopy.2.2.2.2, List.mem_singleton] at hc
    rw [hc]
  | none =>
    simp only [hsource] at hcopy
    rw [hcopy.2] at hc
    exact absurd hc (by simp)

/-- **All that the copy on behalf of a reader does to the lists**: its destination waits for the copy
alone, and its source remembers it for writers. -/
structure ReadLists (R : E → E → Prop) (d : LogicalData E) (id src : ℕ) (copyDone : List E)
    (d' : LogicalData E) : Prop where
  slot : ∀ i, SameSlot (d.inst i) (d'.inst i)
  ne : src ≠ id
  sourceValid : (d.inst src).msir ≠ .invalid
  selfValid : (d'.inst id).msir ≠ .invalid
  state : d'.state = d.state
  count : d'.count = d.count
  reference : d'.referenceInstanceId = d.referenceInstanceId
  settled : (∀ i, (d.inst i).msir ≠ .reduction) → ∀ i, (d'.inst i).msir ≠ .reduction
  valid : ∀ i, i ≠ id → (d'.inst i).msir ≠ .invalid → (d.inst i).msir ≠ .invalid
  self : (d'.inst id).readPrereq = copyDone
  readList : ∀ i, i ≠ id → (d'.inst i).readPrereq = (d.inst i).readPrereq
  writeList : ∀ i, i ≠ id → Covered R (d.inst i).writePrereq (d'.inst i).writePrereq
  source : Covered R copyDone (d'.inst src).writePrereq

theorem readLists {R : E → E → Prop} [Std.Refl R] [IsTrans E R]
    (himp : ∀ e e', B.implied e e' → R e e') (copyDone prereqs : List E) {src : ℕ}
    (hm : (d.inst id).msir = .invalid) (hsrc : (d.inst src).msir ≠ .invalid) :
    ReadLists R d id src copyDone (d.readInvalid B copyDone id src prereqs).data := by
  have hne : src ≠ id := by
    rintro rfl
    exact hsrc hm
  have hmerge := DataInstance.mergePrereq_covers himp (d.inst src).writePrereq copyDone
  have hlist : ((d.readInvalid B copyDone id src prereqs).data.inst src).writePrereq
      = DataInstance.mergePrereq B (d.inst src).writePrereq copyDone := by
    simp [LogicalData.readInvalid, hne, DataInstance.addWritePrereq]
  refine ⟨?_, hne, hsrc, ?_, rfl, rfl, rfl, ?_, ?_, ?_, ?_, ?_, ?_⟩
  · intro i
    simp only [LogicalData.readInvalid, LogicalData.modifyAll_inst, LogicalData.modify_inst]
    constructor <;> split <;> split <;> rfl
  · simp [LogicalData.readInvalid]
  · intro hset i
    have hi := hset i
    simp only [LogicalData.readInvalid, LogicalData.modifyAll_inst]
    split
    · simp
    · rename_i hmi
      rw [not_not] at hmi
      rw [hmi]
      simp
  · intro i hi hv hm'
    rcases eq_or_ne i src with rfl | his
    · exact hsrc hm'
    · simp [LogicalData.readInvalid, hi, his, hm'] at hv
  · simp [LogicalData.readInvalid]
  · intro i hi
    rcases eq_or_ne i src with rfl | his
    · simp [LogicalData.readInvalid, hi, DataInstance.addWritePrereq]
    · simp [LogicalData.readInvalid, hi, his]
  · intro i hi
    rcases eq_or_ne i src with rfl | his
    · rw [hlist]
      exact (Covered.of_subset (by simp)).trans hmerge
    · simp only [LogicalData.readInvalid, LogicalData.modifyAll_inst, LogicalData.modify_inst, hi,
        his, if_false]
      exact Covered.refl _
  · rw [hlist]
    exact (Covered.of_subset (by simp)).trans hmerge

end Lists

/-! ## 3. The invariant -/

/-- **Where the operations on a buffer are known**, with `rw` and `ww` what the record makes the
next reader and the next writer wait for. -/
structure ListInv (R : E → E → Prop) (d : LogicalData E) (epoch : ℕ → ℕ)
    (ops : List (Operation E)) (rw ww : List E) : Prop where
  touched : ∀ i, (d.inst i).allocated → ∀ o ∈ ops, o.Touches (i, epoch i) →
    Covered R o.done ((d.inst i).readPrereq ++ (d.inst i).writePrereq ++ rw)
  written : ∀ i, (d.inst i).msir ≠ .invalid → ∀ o ∈ ops, o.writes = some (i, epoch i) →
    Covered R o.done ((d.inst i).readPrereq ++ rw)
  known : ∀ i, (d.inst i).allocated → ∀ o ∈ ops, o.Touches (i, epoch i) →
    Covered R o.done ((d.inst i).readPrereq ++ ww)
  past : ∀ o ∈ ops, ∀ b, o.Touches b → b.2 ≤ epoch b.1
  owned : ∀ i, (d.inst i).msir ≠ .invalid → (d.inst i).allocated
  settled : ∀ i, (d.inst i).msir ≠ .reduction
  reference : ∀ ref, d.referenceInstanceId = some ref →
    ref = 0 ∧ 0 < d.count ∧ (d.inst 0).allocated ∧ (d.inst 0).reclaimable = false

section Steps

variable {R : E → E → Prop} {d : LogicalData E} {epoch : ℕ → ℕ} {ops : List (Operation E)}
  {rw ww : List E} {id : ℕ} {mode : AccessMode}

theorem ListInv.mono {S : E → E → Prop} (h : ListInv R d epoch ops rw ww)
    (hRS : ∀ e e', R e e' → S e e') : ListInv S d epoch ops rw ww :=
  { h with
    touched := fun i hi o ho ht => (h.touched i hi o ho ht).mono hRS
    written := fun i hi o ho ht => (h.written i hi o ho ht).mono hRS
    known := fun i hi o ho ht => (h.known i hi o ho ht).mono hRS }

theorem ListInv.congr {d' : LogicalData E} (h : ListInv R d epoch ops rw ww)
    (hslot : ∀ i, ((d'.inst i).allocated = (d.inst i).allocated ∧
        (d'.inst i).reclaimable = (d.inst i).reclaimable ∧ (d'.inst i).msir = (d.inst i).msir ∧
        (d'.inst i).readPrereq = (d.inst i).readPrereq ∧
        (d'.inst i).writePrereq = (d.inst i).writePrereq) ∨
      (d.count ≤ i ∧ (d'.inst i).allocated = false ∧ (d'.inst i).msir = .invalid))
    (hcount : d.count ≤ d'.count) (href : d'.referenceInstanceId = d.referenceInstanceId) :
    ListInv R d' epoch ops rw ww := by
  refine ⟨?_, ?_, ?_, h.past, ?_, ?_, ?_⟩
  · intro i hi
    rcases hslot i with ⟨hall, -, -, hr, hw⟩ | ⟨-, hno, -⟩
    · rw [hall] at hi
      rw [hr, hw]
      exact h.touched i hi
    · rw [hno] at hi
      exact absurd hi (by simp)
  · intro i hi
    rcases hslot i with ⟨-, -, hm, hr, -⟩ | ⟨-, -, hno⟩
    · rw [hm] at hi
      rw [hr]
      exact h.written i hi
    · exact absurd hno hi
  · intro i hi
    rcases hslot i with ⟨hall, -, -, hr, -⟩ | ⟨-, hno, -⟩
    · rw [hall] at hi
      rw [hr]
      exact h.known i hi
    · rw [hno] at hi
      exact absurd hi (by simp)
  · intro i hi
    rcases hslot i with ⟨hall, -, hm, -⟩ | ⟨-, -, hno⟩
    · rw [hm] at hi
      rw [hall]
      exact h.owned i hi
    · exact absurd hno hi
  · intro i
    rcases hslot i with ⟨-, -, hm, -⟩ | ⟨-, -, hno⟩
    · rw [hm]
      exact h.settled i
    · rw [hno]
      simp
  · intro ref hr
    rw [href] at hr
    obtain ⟨h0, hpos, hall, hrec⟩ := h.reference ref hr
    rcases hslot 0 with ⟨hall', hrec', -⟩ | ⟨hle, -⟩
    · exact ⟨h0, by omega, by rw [hall', hall], by rw [hrec', hrec]⟩
    · omega

/-- Looking up an instance changes only which slots are in use, and where. -/
theorem ListInv.found (h : ListInv R d epoch ops rw ww) (place : DataPlace) :
    ListInv R (d.findInstanceId place).2 epoch ops rw ww := by
  unfold LogicalData.findInstanceId
  split
  · exact h
  · unfold LogicalData.findUnusedInstanceId
    split
    · rename_i j _
      refine h.congr (fun i => Or.inl ?_) le_rfl rfl
      rcases eq_or_ne i j with rfl | hi
      · simp
      · simp [hi]
    · refine h.congr (fun i => ?_) (Nat.le_succ _) rfl
      rcases eq_or_ne i d.count with rfl | hi
      · simp
      · simp [hi]

theorem ListInv.allocate (h : ListInv R d epoch ops rw ww) (id size : ℕ) (prereqs : List E) :
    ListInv R (d.depAllocate id size prereqs).1
      (if (d.inst id).allocated then epoch else Function.update epoch id (epoch id + 1)) ops rw ww := by
  unfold LogicalData.depAllocate
  split
  · exact h
  · rename_i hall
    have hinvalid : (d.inst id).msir = .invalid := by
      by_contra hne
      exact hall (h.owned id hne)
    -- nothing has used the new buffer yet
    have hnew : ∀ o ∈ ops, ¬ o.Touches (id, epoch id + 1) := by
      intro o ho ht
      have hle : epoch id + 1 ≤ epoch id := h.past o ho _ ht
      omega
    refine ⟨?_, ?_, ?_, ?_, ?_, ?_, ?_⟩
    · intro i hi o ho ht
      rcases eq_or_ne i id with rfl | hne
      · rw [Function.update_self] at ht
        exact absurd ht (hnew o ho)
      · rw [Function.update_of_ne hne] at ht
        simp only [LogicalData.modify_inst, hne, if_false] at hi ⊢
        exact h.touched i hi o ho ht
    · intro i hi o ho ht
      rcases eq_or_ne i id with rfl | hne
      · exact absurd hinvalid (by simpa using hi)
      · rw [Function.update_of_ne hne] at ht
        simp only [LogicalData.modify_inst, hne, if_false] at hi ⊢
        exact h.written i hi o ho ht
    · intro i hi o ho ht
      rcases eq_or_ne i id with rfl | hne
      · rw [Function.update_self] at ht
        exact absurd ht (hnew o ho)
      · rw [Function.update_of_ne hne] at ht
        simp only [LogicalData.modify_inst, hne, if_false] at hi ⊢
        exact h.known i hi o ho ht
    · intro o ho b ht
      have hle := h.past o ho b ht
      rcases eq_or_ne b.1 id with hb | hb
      · rw [hb, Function.update_self]
        rw [hb] at hle
        omega
      · rwa [Function.update_of_ne hb]
    · intro i hi
      rcases eq_or_ne i id with rfl | hne
      · simp
      · simp only [LogicalData.modify_inst, hne, if_false] at hi ⊢
        exact h.owned i hi
    · intro i
      rcases eq_or_ne i id with rfl | hne
      · simpa using h.settled i
      · simpa [hne] using h.settled i
    · intro ref href
      obtain ⟨h0, hpos, hall0, hrec⟩ := h.reference ref href
      have hid : 0 ≠ id := by
        rintro rfl
        exact hall hall0
      simp [h0, hpos, hid, hall0, hrec]

section Access

variable [Std.Refl R] [IsTrans E R] {Q : E → E → Prop} {prereqs copyDone waits rw' ww' : List E}
  {u : Update E} {d' : LogicalData E} {task : Task E}

/-- The table after the release of a task that did not only read. -/
structure Released (id : ℕ) (task : Task E) (d d' : LogicalData E) : Prop where
  slot : ∀ i, SameSlot (d.inst i) (d'.inst i)
  msir : ∀ i, (d'.inst i).msir = (d.inst i).msir
  other : ∀ i, i ≠ id → d'.inst i = d.inst i
  readPrereq : (d'.inst id).readPrereq = task.donePrereqs
  writePrereq : (d'.inst id).writePrereq = []
  count : d'.count = d.count
  reference : d'.referenceInstanceId = d.referenceInstanceId

/-- The table after the release of a task that only read. -/
structure ReadReleased (R : E → E → Prop) (id : ℕ) (task : Task E) (d d' : LogicalData E) :
    Prop where
  slot : ∀ i, SameSlot (d.inst i) (d'.inst i)
  msir : ∀ i, (d'.inst i).msir = (d.inst i).msir
  readList : ∀ i, (d'.inst i).readPrereq = (d.inst i).readPrereq
  writeList : ∀ i, Covered R (d.inst i).writePrereq (d'.inst i).writePrereq
  self : Covered R task.donePrereqs (d'.inst id).writePrereq
  count : d'.count = d.count
  reference : d'.referenceInstanceId = d.referenceInstanceId

/-- How the events of a writing access are ordered, with `Q` the order before and `R` the order after
it: the copy and the task come after what they wait for, and so do the operations on an instance that
is overwritten without a look at its lists. -/
structure AccessOrder (Q R : E → E → Prop) (ops : List (Operation E)) (epoch : ℕ → ℕ)
    (d : LogicalData E) (id : ℕ) (mode : AccessMode) (prereqs waits : List E) (u : Update E)
    (task : Task E) (rw : List E) : Prop where
  grows : ∀ e e', Q e e' → R e e'
  copies : ∀ c ∈ u.copies, Covered R c.waits c.done
  waited : Covered R u.prereqs waits
  completed : Covered R waits task.donePrereqs
  reader : Covered R rw prereqs
  own : (d.inst id).msir = .invalid → copySource d id mode = none →
    Passes Q R ops (id, epoch id) ((d.inst id).readPrereq ++ (d.inst id).writePrereq) prereqs

/-- And what is forgotten is not lost: `rw'` and `ww'` are what the record makes later readers and
writers wait for. -/
structure WriteOrder (Q R : E → E → Prop) (ops : List (Operation E)) (epoch : ℕ → ℕ)
    (d : LogicalData E) (id : ℕ) (mode : AccessMode) (prereqs waits : List E) (u : Update E)
    (task : Task E) (rw ww rw' ww' : List E) : Prop
    extends AccessOrder Q R ops epoch d id mode prereqs waits u task rw where
  others : ∀ i, i ≠ id → (d.inst i).allocated → Passes Q R ops (i, epoch i)
    (forgotten d id mode i) (ww ++ instanceWaits d id mode)
  later : ∀ i, i ≠ id → (d.inst i).allocated → Passes Q R ops (i, epoch i)
    (forgotten d id mode i) (remembered d id i ++ rw')
  nextReader : Covered R rw rw'
  nextWriter : Covered R ww ww'
  recorded : Covered R task.donePrereqs ww'

/-- What a writing access waits for covers its source and its own lists. -/
theorem WriteLists.instanceWaits_cover (hu : WriteLists d id mode prereqs copyDone u)
    (hcopies : ∀ c ∈ u.copies, Covered R c.waits c.done) :
    Covered R (instanceWaits d id mode) u.prereqs := by
  have hc := hu.copy
  cases hsource : copySource d id mode with
  | some src =>
    simp only [hsource] at hc
    obtain ⟨-, -, -, hpre, hlist⟩ := hc
    have hdone : Covered R ((d.inst src).readPrereq ++ (d.inst id).readPrereq
        ++ (d.inst id).writePrereq ++ prereqs) copyDone := by
      simpa [hlist] using hcopies
    simp only [instanceWaits, hsource]
    refine (Covered.of_subset ?_).trans (hdone.mono_right (by simp [hpre]))
    exact List.subset_append_left _ _
  | none =>
    simp only [hsource] at hc
    exact Covered.of_subset (by simp [hc.1])

theorem WriteLists.self_cover (hu : WriteLists d id mode prereqs copyDone u)
    (ho : AccessOrder Q R ops epoch d id mode prereqs waits u task rw) {o : Operation E}
    (hmem : o ∈ ops) (ht : o.Touches (id, epoch id))
    (hknown : Covered Q o.done ((d.inst id).readPrereq ++ (d.inst id).writePrereq ++ rw)) :
    Covered R o.done u.prereqs := by
  have hinst := hu.instanceWaits_cover ho.copies
  have hpre : Covered R prereqs u.prereqs := Covered.of_subset hu.prereqs_subset
  intro e he
  rcases Reaches.append.mp (hknown e he) with hr | hr
  · cases hsource : copySource d id mode with
    | some src =>
      refine (hr.mono ho.grows).of_covered ((Covered.of_subset ?_).trans hinst)
      simp only [instanceWaits, hsource, List.append_assoc]
      exact List.subset_append_right _ _
    | none =>
      rcases eq_or_ne (d.inst id).msir .invalid with hm | hm
      · exact (ho.own hm hsource o hmem ht e he hr).of_covered hpre
      · refine (hr.mono ho.grows).of_covered ((Covered.of_subset ?_).trans hinst)
        simp [instanceWaits, hsource, hm]
  · exact (hr.mono ho.grows).of_covered (ho.reader.trans hpre)

section Write

variable (hu : WriteLists d id mode prereqs copyDone u)
  (ho : WriteOrder Q R ops epoch d id mode prereqs waits u task rw ww rw' ww')
include hu ho

omit [IsTrans E R] in
theorem WriteLists.copy_operation {o : Operation E}
    (hmem : o ∈ u.copies.map (Copy.operation epoch)) :
    ∃ src, copySource d id mode = some src ∧ src ≠ id ∧ (d.inst src).msir ≠ .invalid ∧
      (u.data.inst src).readPrereq = o.done ∧ o.reads = some (src, epoch src) ∧
      o.writes = some (id, epoch id) ∧ o.waits = (d.inst src).readPrereq
        ++ (d.inst id).readPrereq ++ (d.inst id).writePrereq ++ prereqs ∧
      Covered R o.waits o.done ∧ Covered R o.done u.prereqs := by
  obtain ⟨c, hc, rfl⟩ := List.mem_map.mp hmem
  have hcopy := hu.copy
  cases hsource : copySource d id mode with
  | some src =>
    simp only [hsource] at hcopy
    obtain ⟨hne, hvalid, hread, hpre, hcopies⟩ := hcopy
    have hcov := ho.copies c hc
    rw [hcopies, List.mem_singleton] at hc
    subst hc
    exact ⟨src, rfl, hne, hvalid, hread, rfl, rfl, rfl, hcov,
      Covered.of_subset (by simp [hpre, Copy.operation])⟩
  | none =>
    simp only [hsource] at hcopy
    rw [hcopy.2] at hc
    exact absurd hc (by simp)

/-- The read list of another instance is kept, forgotten, or replaced by the completion of the
copy. -/
theorem WriteLists.readList_reaches {i : ℕ} (hi : i ≠ id) {e : E}
    (hr : Reaches Q e (d.inst i).readPrereq) :
    Reaches Q e (forgotten d id mode i) ∨ Reaches R e (u.data.inst i).readPrereq := by
  rcases eq_or_ne (copySource d id mode) (some i) with hsource | hsource
  · have hcopy := hu.copy
    simp only [hsource] at hcopy
    obtain ⟨-, -, hnew, -, hcopies⟩ := hcopy
    have hcov := ho.copies
    simp only [hcopies, List.mem_singleton, forall_eq] at hcov
    rw [hnew]
    exact Or.inr ((hr.mono ho.grows).of_covered
      ((Covered.of_subset (by simp [List.append_assoc])).trans hcov))
  · exact (Reaches.append.mp (hr.mono_right (hu.readList i hi hsource))).imp_right
      (Reaches.mono ho.grows)

/-- An operation on another instance that was known stays known. -/
theorem WriteLists.lists_cover {i : ℕ} (hi : i ≠ id) (hall : (d.inst i).allocated)
    {o : Operation E} (hmem : o ∈ ops) (ht : o.Touches (i, epoch i)) :
    (Covered Q o.done ((d.inst i).readPrereq ++ (d.inst i).writePrereq ++ rw) →
      Covered R o.done ((u.data.inst i).readPrereq ++ (u.data.inst i).writePrereq ++ rw')) ∧
    (Covered Q o.done ((d.inst i).readPrereq ++ ww) →
      Covered R o.done ((u.data.inst i).readPrereq ++ ww')) := by
  have hinst := hu.instanceWaits_cover ho.copies
  constructor
  · intro hknown e he
    have hforgot : Reaches Q e (forgotten d id mode i) →
        Reaches R e ((u.data.inst i).readPrereq ++ (u.data.inst i).writePrereq ++ rw') := by
      intro hr
      rcases Reaches.append.mp (ho.later i hi hall o hmem ht e he hr) with hr | hr
      · refine hr.mono_right (List.Subset.trans (hu.left i hi) ?_)
        rw [List.append_assoc]
        exact List.Subset.trans (List.subset_append_left _ _) (List.subset_append_right _ _)
      · exact hr.mono_right (List.subset_append_right _ _)
    rcases Reaches.append.mp (hknown e he) with hr | hr
    · rcases Reaches.append.mp hr with hr | hr
      · rcases hu.readList_reaches ho hi hr with hr | hr
        · exact hforgot hr
        · exact hr.mono_right (by simp [List.append_assoc])
      · rcases Reaches.append.mp (hr.mono_right (hu.writeList i hi)) with hr | hr
        · exact hforgot hr
        · rw [List.append_assoc]
          exact Reaches.append.mpr (Or.inr (Reaches.append.mpr (Or.inl (hr.mono ho.grows))))
    · exact Reaches.append.mpr (Or.inr ((hr.mono ho.grows).of_covered ho.nextReader))
  · intro hknown e he
    rcases Reaches.append.mp (hknown e he) with hr | hr
    · rcases hu.readList_reaches ho hi hr with hr | hr
      · refine Reaches.append.mpr (Or.inr ?_)
        rcases Reaches.append.mp (ho.others i hi hall o hmem ht e he hr) with hr | hr
        · exact hr.of_covered ho.nextWriter
        · exact hr.of_covered (((hinst.trans ho.waited).trans ho.completed).trans ho.recorded)
      · exact Reaches.append.mpr (Or.inl hr)
    · exact Reaches.append.mpr (Or.inr ((hr.mono ho.grows).of_covered ho.nextWriter))

/-- **A writing access keeps the operations known.** -/
theorem ListInv.write (h : ListInv Q d epoch ops rw ww) (hd' : Released id task u.data d')
    (hall : (d.inst id).allocated) (hread : mode ≠ .read) :
    ListInv R d' epoch (ops ++ (u.copies.map (Copy.operation epoch) ++
      [task.operation mode waits (id, epoch id)])) rw' ww' := by
  have hafter : Covered R u.prereqs task.donePrereqs := ho.waited.trans ho.completed
  -- every operation on the accessed buffer is before the completion of the task
  have hid : ∀ o ∈ ops ++ (u.copies.map (Copy.operation epoch) ++
      [task.operation mode waits (id, epoch id)]), o.Touches (id, epoch id) →
      Covered R o.done task.donePrereqs := by
    intro o hmem ht
    rcases List.mem_append.mp hmem with hmem | hmem
    · exact (hu.self_cover ho.toAccessOrder hmem ht (h.touched id hall o hmem ht)).trans hafter
    · rcases List.mem_append.mp hmem with hmem | hmem
      · obtain ⟨_, _, _, _, _, _, _, _, _, hdone⟩ := hu.copy_operation ho hmem
        exact hdone.trans hafter
      · rw [List.mem_singleton.mp hmem]
        exact Covered.refl _
  -- an operation on another buffer is an old one, or the copy that reads its source
  have hother : ∀ {i o}, i ≠ id → o ∈ ops ++ (u.copies.map (Copy.operation epoch) ++
      [task.operation mode waits (id, epoch id)]) → o.Touches (i, epoch i) →
      o ∈ ops ∨ (o.writes ≠ some (i, epoch i) ∧ o.done = (u.data.inst i).readPrereq) := by
    intro i o hi hmem ht
    rcases List.mem_append.mp hmem with hmem | hmem
    · exact Or.inl hmem
    · rcases List.mem_append.mp hmem with hmem | hmem
      · obtain ⟨src, _, _, _, hnew, hreads, hwrites, _⟩ := hu.copy_operation ho hmem
        have hne : o.writes ≠ some (i, epoch i) := by
          rw [hwrites]
          intro heq
          exact hi (congrArg Prod.fst (Option.some.inj heq)).symm
        refine Or.inr ⟨hne, ?_⟩
        rcases ht with ht | ht
        · rw [hreads] at ht
          obtain rfl : src = i := congrArg Prod.fst (Option.some.inj ht)
          exact hnew.symm
        · exact absurd ht hne
      · rw [List.mem_singleton.mp hmem] at ht
        rcases ht with ht | ht
        · simp [Task.operation, hread] at ht
        · simp only [Task.operation, hread, if_false, Option.some.injEq, Prod.mk.injEq] at ht
          exact absurd ht.1.symm hi
  constructor
  · intro i hi o hmem ht
    rcases eq_or_ne i id with rfl | hne
    · rw [hd'.readPrereq]
      exact (hid o hmem ht).mono_right (by simp)
    · rw [hd'.other i hne] at hi ⊢
      rw [(hu.slot i).allocated] at hi
      rcases hother hne hmem ht with hold | ⟨-, hnew⟩
      · exact (hu.lists_cover ho hne hi hold ht).1 (h.touched i hi o hold ht)
      · rw [hnew]
        exact Covered.of_subset (by simp [List.append_assoc])
  · intro i hi o hmem ht
    rcases eq_or_ne i id with rfl | hne
    · rw [hd'.readPrereq]
      exact (hid o hmem (Or.inr ht)).mono_right (by simp)
    · rw [hd'.other i hne] at hi ⊢
      obtain ⟨hvalid, hsame⟩ := hu.valid i hne hi
      rw [hsame]
      rcases hother hne hmem (Or.inr ht) with hold | ⟨hno, -⟩
      · refine ((h.written i hvalid o hold ht).mono ho.grows).trans (Covered.append_left ?_ ?_)
        · exact Covered.of_subset (by simp)
        · exact ho.nextReader.mono_right (by simp)
      · exact absurd ht hno
  · intro i hi o hmem ht
    rcases eq_or_ne i id with rfl | hne
    · rw [hd'.readPrereq]
      exact (hid o hmem ht).mono_right (by simp)
    · rw [hd'.other i hne] at hi ⊢
      rw [(hu.slot i).allocated] at hi
      rcases hother hne hmem ht with hold | ⟨-, hnew⟩
      · exact (hu.lists_cover ho hne hi hold ht).2 (h.known i hi o hold ht)
      · rw [hnew]
        exact Covered.of_subset (by simp)
  · intro o hmem b ht
    rcases List.mem_append.mp hmem with hmem | hmem
    · exact h.past o hmem b ht
    · rcases List.mem_append.mp hmem with hmem | hmem
      · obtain ⟨src, _, _, _, _, hreads, hwrites, _⟩ := hu.copy_operation ho hmem
        rcases ht with ht | ht
        · rw [hreads] at ht
          rw [← Option.some.inj ht]
        · rw [hwrites] at ht
          rw [← Option.some.inj ht]
      · rw [List.mem_singleton.mp hmem] at ht
        rcases ht with ht | ht
        · simp [Task.operation, hread] at ht
        · simp only [Task.operation, hread, if_false, Option.some.injEq] at ht
          rw [← ht]
  · intro i hi
    rw [(hd'.slot i).allocated, (hu.slot i).allocated]
    rcases eq_or_ne i id with rfl | hne
    · exact hall
    · rw [hd'.other i hne] at hi
      exact h.owned i (hu.valid i hne hi).1
  · intro i
    rw [hd'.msir]
    exact hu.settled h.settled i
  · intro ref href
    rw [hd'.reference, hu.reference] at href
    rw [hd'.count, hu.count, (hd'.slot 0).allocated, (hd'.slot 0).reclaimable,
      (hu.slot 0).allocated, (hu.slot 0).reclaimable]
    exact h.reference ref href

/-- **A writing access is ordered after the operations it conflicts with.** -/
theorem ListInv.write_ordered (h : ListInv Q d epoch ops rw ww) (hall : (d.inst id).allocated)
    (hread : mode ≠ .read) :
    (∀ o ∈ ops, ∀ o' ∈ u.copies.map (Copy.operation epoch) ++
        [task.operation mode waits (id, epoch id)], o.Conflict o' → o.Before R o') ∧
      (u.copies.map (Copy.operation epoch) ++
        [task.operation mode waits (id, epoch id)]).Pairwise fun o o' =>
          o.Conflict o' → o.Before R o' := by
  constructor
  · rintro o hmem o' hmem' ⟨b, ht, ht', hw⟩
    rcases List.mem_append.mp hmem' with hmem' | hmem'
    · obtain ⟨src, _, hne, hvalid, _, hreads, hwrites, hwait, _⟩ := hu.copy_operation ho hmem'
      show Covered R o.done o'.waits
      rw [hwait]
      rcases ht' with ht' | ht'
      · -- the source: only its writers matter
        rw [hreads] at ht'
        obtain rfl := Option.some.inj ht'
        have hwrite : o.writes = some (src, epoch src) := by
          rcases hw with hw | hw
          · exact hw
          · rw [hwrites, Option.some.injEq, Prod.mk.injEq] at hw
            exact absurd hw.1.symm hne
        refine ((h.written src hvalid o hmem hwrite).mono ho.grows).trans
          (Covered.append_left ?_ ?_)
        · exact Covered.of_subset (by simp [List.append_assoc])
        · exact ho.reader.mono_right (List.subset_append_right _ _)
      · rw [hwrites] at ht'
        obtain rfl := Option.some.inj ht'
        refine ((h.touched id hall o hmem ht).mono ho.grows).trans (Covered.append_left ?_ ?_)
        · exact Covered.of_subset (by intro e; simp only [List.mem_append]; tauto)
        · exact ho.reader.mono_right (List.subset_append_right _ _)
    · rw [List.mem_singleton.mp hmem'] at ht' ⊢
      have hb : b = (id, epoch id) := by
        rcases ht' with ht' | ht'
        · simp [Task.operation, hread] at ht'
        · simpa [Task.operation, hread] using ht'.symm
      subst hb
      exact (hu.self_cover ho.toAccessOrder hmem ht (h.touched id hall o hmem ht)).trans ho.waited
  · rw [List.pairwise_append]
    refine ⟨?_, List.pairwise_singleton _ _, ?_⟩
    · have hcopy := hu.copy
      cases hsource : copySource d id mode with
      | some src =>
        simp only [hsource] at hcopy
        simp [hcopy.2.2.2.2]
      | none =>
        simp only [hsource] at hcopy
        simp [hcopy.2]
    · intro o hmem o' hmem' _
      obtain ⟨_, _, _, _, _, _, _, _, _, hdone⟩ := hu.copy_operation ho hmem
      rw [List.mem_singleton.mp hmem']
      exact hdone.trans ho.waited

end Write

/-- **A copy on behalf of a reader keeps the operations known**, and it is ordered after those it
conflicts with. -/
theorem ListInv.readCopy (h : ListInv R d epoch ops rw ww) {src : ℕ}
    (hu : ReadLists R d id src copyDone d') (hall : (d.inst id).allocated)
    (hrw : Covered R rw prereqs)
    (hcopy : Covered R ((d.inst src).readPrereq ++ (d.inst id).readPrereq
      ++ (d.inst id).writePrereq ++ prereqs) copyDone) :
    ListInv R d' epoch (ops ++ [Copy.operation epoch ⟨id, src, (d.inst src).readPrereq
        ++ (d.inst id).readPrereq ++ (d.inst id).writePrereq ++ prereqs, copyDone⟩])
        rw (ww ++ copyDone) ∧
      ∀ o ∈ ops, o.Conflict (Copy.operation epoch ⟨id, src, (d.inst src).readPrereq
        ++ (d.inst id).readPrereq ++ (d.inst id).writePrereq ++ prereqs, copyDone⟩) →
        Covered R o.done ((d.inst src).readPrereq ++ (d.inst id).readPrereq
          ++ (d.inst id).writePrereq ++ prereqs) := by
  set waits := (d.inst src).readPrereq ++ (d.inst id).readPrereq ++ (d.inst id).writePrereq
    ++ prereqs with hwaits
  set copy : Operation E := Copy.operation epoch ⟨id, src, waits, copyDone⟩ with hop
  have hself : ∀ o ∈ ops, o.Touches (id, epoch id) → Covered R o.done waits := by
    intro o ho ht
    refine (h.touched id hall o ho ht).trans (Covered.append_left ?_ ?_)
    · exact Covered.of_subset (by intro e; simp only [hwaits, List.mem_append]; tauto)
    · exact hrw.mono_right (List.subset_append_right _ _)
  have htouch : ∀ {i}, i ≠ id → copy.Touches (i, epoch i) → i = src := by
    rintro i hi (ht | ht)
    · simp only [hop, Copy.operation, Option.some.injEq, Prod.mk.injEq] at ht
      exact ht.1.symm
    · simp only [hop, Copy.operation, Option.some.injEq, Prod.mk.injEq] at ht
      exact absurd ht.1.symm hi
  have hid : ∀ o ∈ ops ++ [copy], o.Touches (id, epoch id) → Covered R o.done copyDone := by
    intro o ho ht
    rcases List.mem_append.mp ho with ho | ho
    · exact (hself o ho ht).trans hcopy
    · rw [List.mem_singleton.mp ho]
      exact Covered.refl _
  refine ⟨⟨?_, ?_, ?_, ?_, ?_, hu.settled h.settled, ?_⟩, ?_⟩
  · intro i hi o ho ht
    rcases eq_or_ne i id with rfl | hne
    · rw [hu.self]
      exact (hid o ho ht).mono_right (by simp)
    · rw [(hu.slot i).allocated] at hi
      rw [hu.readList i hne]
      rcases List.mem_append.mp ho with ho | ho
      · refine (h.touched i hi o ho ht).trans (Covered.append_left (Covered.append_left ?_ ?_) ?_)
        · exact Covered.of_subset (by simp [List.append_assoc])
        · exact (hu.writeList i hne).mono_right (by intro e; simp only [List.mem_append]; tauto)
        · exact Covered.of_subset (by simp)
      · rw [List.mem_singleton.mp ho] at ht ⊢
        obtain rfl := htouch hne ht
        exact hu.source.mono_right (by intro e; simp only [List.mem_append]; tauto)
  · intro i hi o ho ht
    rcases eq_or_ne i id with rfl | hne
    · rw [hu.self]
      exact (hid o ho (Or.inr ht)).mono_right (by simp)
    · rw [hu.readList i hne]
      rcases List.mem_append.mp ho with ho | ho
      · exact h.written i (hu.valid i hne hi) o ho ht
      · rw [List.mem_singleton.mp ho] at ht
        simp only [hop, Copy.operation, Option.some.injEq, Prod.mk.injEq] at ht
        exact absurd ht.1.symm hne
  · intro i hi o ho ht
    rcases eq_or_ne i id with rfl | hne
    · rw [hu.self]
      exact (hid o ho ht).mono_right (by simp)
    · rw [(hu.slot i).allocated] at hi
      rw [hu.readList i hne]
      rcases List.mem_append.mp ho with ho | ho
      · exact (h.known i hi o ho ht).mono_right (by intro e; simp only [List.mem_append]; tauto)
      · rw [List.mem_singleton.mp ho]
        exact Covered.of_subset (by intro e; simp only [List.mem_append]; tauto)
  · intro o ho b ht
    rcases List.mem_append.mp ho with ho | ho
    · exact h.past o ho b ht
    · rw [List.mem_singleton.mp ho] at ht
      rcases ht with ht | ht
      · rw [← Option.some.inj ht]
      · rw [← Option.some.inj ht]
  · intro i hi
    rw [(hu.slot i).allocated]
    rcases eq_or_ne i id with rfl | hne
    · exact hall
    · exact h.owned i (hu.valid i hne hi)
  · intro ref href
    rw [hu.reference] at href
    rw [hu.count, (hu.slot 0).allocated, (hu.slot 0).reclaimable]
    exact h.reference ref href
  · rintro o ho ⟨b, ht, ht', hw⟩
    rcases ht' with ht' | ht'
    · -- the source: only its writers matter
      obtain rfl := Option.some.inj ht'
      have hwrite : o.writes = some (src, epoch src) := by
        rcases hw with hw | hw
        · exact hw
        · simp only [hop, Copy.operation, Option.some.injEq, Prod.mk.injEq] at hw
          exact absurd hw.1.symm hu.ne
      refine (h.written src hu.sourceValid o ho hwrite).trans (Covered.append_left ?_ ?_)
      · exact Covered.of_subset (by intro e; simp only [hwaits, List.mem_append]; tauto)
      · exact hrw.mono_right (List.subset_append_right _ _)
    · obtain rfl := Option.some.inj ht'
      exact hself o ho ht

/-- **Reading a valid instance keeps the operations known**, and it is ordered after those that
wrote it. -/
theorem ListInv.read (h : ListInv R d epoch ops rw ww) (hd' : ReadReleased R id task d d')
    (hvalid : (d.inst id).msir ≠ .invalid) (hrw : Covered R rw waits)
    (hwaits : Covered R (d.inst id).readPrereq waits) (hww' : Covered R ww ww')
    (hdone' : Covered R task.donePrereqs ww') :
    ListInv R d' epoch (ops ++ [task.operation .read waits (id, epoch id)]) rw ww' ∧
      ∀ o ∈ ops, o.Conflict (task.operation .read waits (id, epoch id)) →
        Covered R o.done waits := by
  have htouch : ∀ {i}, (task.operation .read waits (id, epoch id)).Touches (i, epoch i) →
      i = id := by
    rintro i (ht | ht)
    · simp only [Task.operation, if_true, Option.some.injEq, Prod.mk.injEq] at ht
      exact ht.1.symm
    · simp [Task.operation] at ht
  refine ⟨⟨?_, ?_, ?_, ?_, ?_, ?_, ?_⟩, ?_⟩
  · intro i hi o ho ht
    rw [(hd'.slot i).allocated] at hi
    rw [hd'.readList i]
    rcases List.mem_append.mp ho with ho | ho
    · refine (h.touched i hi o ho ht).trans (Covered.append_left (Covered.append_left ?_ ?_) ?_)
      · exact Covered.of_subset (by simp [List.append_assoc])
      · exact (hd'.writeList i).mono_right (by intro e; simp only [List.mem_append]; tauto)
      · exact Covered.of_subset (by simp)
    · rw [List.mem_singleton.mp ho] at ht ⊢
      obtain rfl := htouch ht
      exact hd'.self.mono_right (by intro e; simp only [List.mem_append]; tauto)
  · intro i hi o ho ht
    rw [hd'.msir] at hi
    rw [hd'.readList i]
    rcases List.mem_append.mp ho with ho | ho
    · exact h.written i hi o ho ht
    · rw [List.mem_singleton.mp ho] at ht
      simp [Task.operation] at ht
  · intro i hi o ho ht
    rw [(hd'.slot i).allocated] at hi
    rw [hd'.readList i]
    rcases List.mem_append.mp ho with ho | ho
    · refine (h.known i hi o ho ht).trans (Covered.append_left ?_ ?_)
      · exact Covered.of_subset (by simp)
      · exact hww'.mono_right (by simp)
    · rw [List.mem_singleton.mp ho]
      exact hdone'.mono_right (by simp)
  · intro o ho b ht
    rcases List.mem_append.mp ho with ho | ho
    · exact h.past o ho b ht
    · rw [List.mem_singleton.mp ho] at ht
      rcases ht with ht | ht
      · simp only [Task.operation, if_true, Option.some.injEq] at ht
        rw [← ht]
      · simp [Task.operation] at ht
  · intro i hi
    rw [hd'.msir] at hi
    rw [(hd'.slot i).allocated]
    exact h.owned i hi
  · intro i
    rw [hd'.msir]
    exact h.settled i
  · intro ref href
    rw [hd'.reference] at href
    rw [hd'.count, (hd'.slot 0).allocated, (hd'.slot 0).reclaimable]
    exact h.reference ref href
  · rintro o ho ⟨b, ht, ht', hw⟩
    have hb : b = (id, epoch id) := by
      rcases ht' with ht' | ht'
      · simpa [Task.operation] using ht'.symm
      · simp [Task.operation] at ht'
    subst hb
    have hwrite : o.writes = some (id, epoch id) := by
      rcases hw with hw | hw
      · exact hw
      · simp [Task.operation] at hw
    exact (h.written id hvalid o ho hwrite).trans (hwaits.append_left hrw)

end Access

end Steps

end Cccl.Stf
