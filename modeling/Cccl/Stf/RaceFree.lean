/-
# Tasks do not race where nothing is lost

The invariant of a run: the record is in order, the operations on every buffer are known
(`ListInv`), and those so far are ordered wherever they conflict.  Happens-before grows with the log
and keeps everything it had, so a step is proved against the order of the log it leads to: the new
operations come after what they wait for, and the old facts still hold.
-/
import Cccl.Stf.BufferLists

namespace Cccl.Stf

variable {E : Type*}

/-! ## 1. Tables with the same lists -/

section Same

variable {d d' : LogicalData E} {id : ℕ} {mode : AccessMode}

/-- Two tables that the protocol treats alike. -/
structure SameLists (d d' : LogicalData E) : Prop where
  count : d'.count = d.count
  msir : ∀ i, (d'.inst i).msir = (d.inst i).msir
  readPrereq : ∀ i, (d'.inst i).readPrereq = (d.inst i).readPrereq
  writePrereq : ∀ i, (d'.inst i).writePrereq = (d.inst i).writePrereq

theorem SameLists.copySource (h : SameLists d d') :
    copySource d' id mode = copySource d id mode := by
  simp only [Cccl.Stf.copySource, LogicalData.findSourceInstanceId, h.count, h.msir]

theorem SameLists.instanceWaits (h : SameLists d d') :
    instanceWaits d' id mode = instanceWaits d id mode := by
  simp only [Cccl.Stf.instanceWaits, h.copySource, h.msir, h.readPrereq, h.writePrereq]

theorem SameLists.forgotten (h : SameLists d d') (i : ℕ) :
    forgotten d' id mode i = forgotten d id mode i := by
  simp only [Cccl.Stf.forgotten, h.copySource, h.msir, h.readPrereq, h.writePrereq]

theorem SameLists.remembered (h : SameLists d d') (i : ℕ) :
    remembered d' id i = remembered d id i := by
  simp only [Cccl.Stf.remembered, h.msir, h.writePrereq]

theorem depAllocate_sameLists (d : LogicalData E) (id size : ℕ) (prereqs : List E)
    (st : LogicalDataState E) :
    SameLists d (({ d with state := st } : LogicalData E).depAllocate id size prereqs).1 := by
  unfold LogicalData.depAllocate
  split
  · exact ⟨rfl, fun _ => rfl, fun _ => rfl, fun _ => rfl⟩
  · refine ⟨rfl, fun i => ?_, fun i => ?_, fun i => ?_⟩ <;>
      · rcases eq_or_ne i id with rfl | hi
        · simp
        · simp [hi]

/-- An instance that gets memory hands its lists to the caller. -/
theorem depAllocate_spec (d : LogicalData E) (id size : ℕ) (prereqs : List E) :
    prereqs ⊆ (d.depAllocate id size prereqs).2 ∧
      ((d.inst id).allocated = false → (d.inst id).readPrereq ++ (d.inst id).writePrereq
        ⊆ (d.depAllocate id size prereqs).2) ∧
      ((d.depAllocate id size prereqs).1.inst id).allocated ∧
      (∀ i, i ≠ id → (d.depAllocate id size prereqs).1.inst i = d.inst i) ∧
      (d.depAllocate id size prereqs).1.state = d.state := by
  unfold LogicalData.depAllocate
  split
  · rename_i hall
    refine ⟨List.Subset.refl _, fun hno => ?_, hall, fun _ _ => rfl, rfl⟩
    rw [hall] at hno
    exact absurd hno (by simp)
  · refine ⟨by simp [List.append_assoc], fun _ => ?_, by simp, fun i hi => by simp [hi], rfl⟩
    rw [List.append_assoc]
    exact List.subset_append_right _ _

theorem findInstanceId_state (d : LogicalData E) (place : DataPlace) :
    (d.findInstanceId place).2.state = d.state := by
  unfold LogicalData.findInstanceId LogicalData.findUnusedInstanceId
  split
  · rfl
  · split <;> rfl

end Same

/-! ## 2. Releasing -/

section Release

variable [LinearOrder E] {B : EventBackend E} {task : Task E} {id : ℕ} {mode : AccessMode}

theorem releaseDep_released (d : LogicalData E) (hread : mode ≠ .read) :
    Released id task d (releaseDep B task id mode d) := by
  have hinst : ∀ i, (releaseDep B task id mode d).inst i = if i = id then
      { d.inst i with readPrereq := task.donePrereqs, writePrereq := [] } else d.inst i := by
    intro i
    simp only [releaseDep, LogicalData.modify_inst, hread, if_false]
  refine ⟨fun i => ?_, fun i => ?_, fun i hi => ?_, ?_, ?_, rfl, rfl⟩
  · rw [hinst]
    constructor <;> split <;> rfl
  · rw [hinst]
    split <;> rfl
  · rw [hinst, if_neg hi]
  · rw [hinst, if_pos rfl]
  · rw [hinst, if_pos rfl]

theorem releaseDep_readReleased {R : E → E → Prop} [Std.Refl R] [IsTrans E R]
    (himp : ∀ e e', B.implied e e' → R e e') (d : LogicalData E) :
    ReadReleased R id task d (releaseDep B task id .read d) := by
  have hinst : ∀ i, (releaseDep B task id .read d).inst i = if i = id then
      (d.inst i).addWritePrereq B task.donePrereqs else d.inst i := by
    intro i
    simp only [releaseDep, LogicalData.modify_inst, if_true]
  have hmerge := DataInstance.mergePrereq_covers himp (d.inst id).writePrereq task.donePrereqs
  refine ⟨fun i => ?_, fun i => ?_, fun i => ?_, fun i => ?_, ?_, rfl, rfl⟩
  · rw [hinst]
    constructor <;> split <;> rfl
  · rw [hinst]
    split <;> rfl
  · rw [hinst]
    split <;> rfl
  · rw [hinst]
    split
    · rename_i hi
      subst hi
      exact (Covered.of_subset (by simp)).trans hmerge
    · exact Covered.refl _
  · rw [hinst, if_pos rfl]
    exact (Covered.of_subset (by simp)).trans hmerge

end Release

/-! ## 3. One task -/

/-- **The invariant of a run.** -/
structure FlowInv (R : E → E → Prop) (s : FlowState E) : Prop where
  record : RecordOk R s.data.state
  lists : ListInv R s.data s.epoch s.ops (readerWaits s.data.state) (writerWaits s.data.state)
  ordered : s.ops.Pairwise fun o o' => o.Conflict o' → o.Before R o'

section Step

variable [LinearOrder E] {B : EventBackend E} {R : E → E → Prop} [Std.Refl R] [IsTrans E R]
  {s s' : FlowState E}

omit [LinearOrder E] [Std.Refl R] [IsTrans E R] in
theorem FlowInv.mono {S : E → E → Prop} (h : FlowInv R s) (hRS : ∀ e e', R e e' → S e e') :
    FlowInv S s :=
  ⟨h.record.mono hRS, h.lists.mono hRS, h.ordered.imp fun hord hc => (hord hc).mono hRS⟩

omit [LinearOrder E] in
/-- The events of a writing access by which nothing is lost are ordered as they should be. -/
theorem OrderKept.writeOrder {Q : E → E → Prop} {ops : List (Operation E)} {epoch epoch' : ℕ → ℕ}
    {d d₁ : LogicalData E} {id : ℕ} {mode : AccessMode} {prereqs copyDone waits ww' rw' : List E}
    {u : Update E} {task : Task E} (hkept : OrderKept Q ops epoch d id mode)
    (hgrow : ∀ e e', Q e e' → R e e') (hrec : RecordOk R d.state) (hsame : SameLists d d₁)
    (hother : ∀ i, i ≠ id → d₁.inst i = d.inst i ∧ epoch' i = epoch i)
    (hepoch : (d.inst id).allocated → epoch' id = epoch id)
    (hu : WriteLists d₁ id mode prereqs copyDone u)
    (hprereqs : recordWaits d.state mode ⊆ prereqs)
    (hnew : (d.inst id).allocated = false →
      (d.inst id).readPrereq ++ (d.inst id).writePrereq ⊆ prereqs)
    (hcopies : ∀ c ∈ u.copies, Covered R c.waits c.done) (hwaits : Covered R u.prereqs waits)
    (hdone : Covered R waits task.donePrereqs)
    (hrw' : rw' = if mode.isWrite then task.donePrereqs else readerWaits d.state)
    (hww' : Covered R (writerWaits d.state) ww') (htask : Covered R task.donePrereqs ww') :
    WriteOrder Q R ops epoch' d₁ id mode prereqs waits u task (readerWaits d.state)
      (writerWaits d.state) rw' ww' := by
  have hreader : Covered R (readerWaits d.state) prereqs := by
    refine Covered.mono_right ?_ hprereqs
    unfold recordWaits
    split
    · exact hrec.waits
    · exact Covered.refl _
  have hafter : Covered R u.prereqs task.donePrereqs := hwaits.trans hdone
  have hpre : Covered R prereqs task.donePrereqs :=
    (Covered.of_subset hu.prereqs_subset).trans hafter
  have hinst : Covered R (instanceWaits d₁ id mode) task.donePrereqs :=
    (hu.instanceWaits_cover hcopies).trans hafter
  have hothers : ∀ i, i ≠ id → (d₁.inst i).allocated → Passes Q R ops (i, epoch' i)
      (forgotten d₁ id mode i) (writerWaits d.state ++ instanceWaits d₁ id mode) := by
    intro i hi hall o ho ht e he hr
    obtain ⟨hslot, hsince⟩ := hother i hi
    rw [hslot] at hall
    rw [hsince] at ht
    rw [hsame.forgotten] at hr
    rw [hsame.instanceWaits]
    exact (hkept.others i hi hall o ho ht e he hr).mono hgrow
  refine ⟨⟨hgrow, hcopies, hwaits, hdone, hreader, ?_⟩, hothers, ?_, ?_, hww', htask⟩
  · intro hm hsource o ho ht e he hr
    have hmode := hu.source hm hsource
    rw [hsame.msir] at hm
    rw [hsame.readPrereq, hsame.writePrereq] at hr
    cases hall : (d.inst id).allocated with
    | true =>
      rw [hepoch hall] at ht
      exact ((hkept.own hall hm hmode o ho ht e he hr).mono hgrow).mono_right hprereqs
    | false => exact (hr.mono hgrow).mono_right (hnew hall)
  · intro i hi hall o ho ht e he hr
    cases hw : mode.isWrite with
    | true =>
      -- a writer comes after everything it forgets
      rw [hw, if_pos rfl] at hrw'
      rw [hrw']
      have hwriter : Covered R (writerWaits d.state) prereqs := by
        rw [recordWaits, hw, if_pos rfl] at hprereqs
        exact Covered.of_subset hprereqs
      have hboth : Covered R (writerWaits d.state ++ instanceWaits d₁ id mode) task.donePrereqs :=
        (hwriter.trans hpre).append_left hinst
      exact ((hothers i hi hall o ho ht e he hr).of_covered hboth).mono_right
        (List.subset_append_right _ _)
    | false =>
      rw [hw, if_neg (by simp)] at hrw'
      obtain ⟨hslot, hsince⟩ := hother i hi
      rw [hslot] at hall
      rw [hsince] at ht
      rw [hsame.forgotten] at hr
      rw [hsame.remembered, hrw']
      exact (hkept.readers hw i hi hall o ho ht e he hr).mono hgrow
  · rw [hrw']
    split
    · exact hreader.trans hpre
    · exact Covered.refl _

/-- The steps of `fetch_data`. -/
theorem fetchData_some (himp : ∀ e e', B.implied e e' → R e e') {d : LogicalData E} {id size : ℕ}
    {mode : AccessMode} {copyDone : List E} {u : Update E} (hrec : RecordOk R d.state)
    (hmode : mode.IsPlain) (h : fetchData B copyDone id size mode d = some u) :
    ∃ (st : LogicalDataState E) (d₁ : LogicalData E) (prereqs : List E) (u₀ : Update E),
      (∀ task : Task E, Covered R (recordWaits d.state mode) task.donePrereqs →
        RecordOk R (enforceStfDepsAfter B task mode st) ∧
        Covered R (writerWaits d.state) (writerWaits (enforceStfDepsAfter B task mode st)) ∧
        Covered R task.donePrereqs (writerWaits (enforceStfDepsAfter B task mode st)) ∧
        readerWaits (enforceStfDepsAfter B task mode st)
          = if mode.isWrite then task.donePrereqs else readerWaits d.state) ∧
      ({ d with state := st } : LogicalData E).depAllocate id size (recordWaits d.state mode)
        = (d₁, prereqs) ∧
      d₁.enforceMsiProtocol B copyDone id mode prereqs = some u₀ ∧
      u = { u₀ with prereqs := B.optimize u₀.prereqs } := by
  obtain ⟨st, hbefore, hafter⟩ := hrec.step himp hmode
    ((d.inst id).readPrereq ++ (d.inst id).writePrereq)
  unfold fetchData at h
  rw [hbefore] at h
  dsimp only at h
  obtain ⟨u₀, hu₀, rfl⟩ := Option.map_eq_some_iff.mp h
  exact ⟨st, _, _, u₀, hafter, rfl, hu₀, rfl⟩

/-- **A task keeps the invariant**, from one order to any that has grown and that the operations so
far respect. -/
theorem FlowInv.runTask {Q : E → E → Prop} (hgrow : ∀ e e', Q e e' → R e e')
    (himp : ∀ e e', B.implied e e' → R e e') (hbefore : FlowInv Q s)
    {place : DataPlace} {size : ℕ} {mode : AccessMode} {task : Task E} {copyDone : List E}
    (hmode : mode.IsPlain) (hcopyDone : copyDone ≠ [])
    (hkept : mode ≠ .read →
      OrderKept Q s.ops s.epoch (s.data.findInstanceId place).2 (s.data.findInstanceId place).1 mode)
    (hr : s.runTask B place size mode task copyDone = some s')
    (hresp : ∀ o ∈ s'.ops, Respects R o.toSubmission) : FlowInv R s' := by
  have h := hbefore.mono hgrow
  have hlists := hbefore.lists.found place
  have hrec := h.record
  rw [← findInstanceId_state s.data place] at hlists hrec
  unfold FlowState.runTask at hr
  generalize s.data.findInstanceId place = found at hr hlists hrec hkept
  obtain ⟨id, d⟩ := found
  dsimp only at hr hlists hrec hkept
  obtain ⟨u, hu, rfl⟩ := Option.map_eq_some_iff.mp hr
  obtain ⟨st, d₁, prereqs, u₀, hafter, halloc, hmsi, rfl⟩ := fetchData_some himp hrec hmode hu
  have hsame := depAllocate_sameLists d id size (recordWaits d.state mode) st
  have hspec := depAllocate_spec ({ d with state := st } : LogicalData E) id size
    (recordWaits d.state mode)
  have hstated : ListInv Q ({ d with state := st } : LogicalData E) s.epoch s.ops
      (readerWaits d.state) (writerWaits d.state) :=
    hlists.congr (fun i => Or.inl ⟨rfl, rfl, rfl, rfl, rfl⟩) le_rfl rfl
  have hold := hstated.allocate id size (recordWaits d.state mode)
  rw [halloc] at hsame hspec hold
  obtain ⟨hprereqs, hnew, hall, hother, hstate⟩ := hspec
  dsimp only at hsame hprereqs hnew hall hother hstate hold hresp ⊢
  set epoch := if (d.inst id).allocated then s.epoch
    else Function.update s.epoch id (s.epoch id + 1) with hepoch
  have hinv := hold.mono hgrow
  have hwaited : Covered R u₀.prereqs (B.optimize u₀.prereqs) := B.optimize_covers himp _
  have hbody : Covered R (B.optimize u₀.prereqs) task.donePrereqs :=
    (hresp (task.operation mode (B.optimize u₀.prereqs) (id, epoch id)) (by simp)).covered
      task.done_ne_nil
  have hcopy : ∀ c ∈ u₀.copies, c.done ≠ [] → Covered R c.waits c.done := fun c hc hne =>
    (hresp (Copy.operation epoch c) (List.mem_append_right _
      (List.mem_append_left _ (List.mem_map_of_mem hc)))).covered hne
  have htaskState : (releaseDep B task id mode u₀.data).state
      = enforceStfDepsAfter B task mode u₀.data.state := rfl
  rcases eq_or_ne mode .read with rfl | hread
  · have hreader : Covered R (readerWaits d.state) prereqs := Covered.of_subset hprereqs
    rcases LogicalData.enforceMsiProtocol_cases hmode (hinv.settled id) hmsi with
      ⟨-, hvalid, rfl⟩ | ⟨src, -, hm, hsrc, rfl⟩ | ⟨hno, -⟩ | ⟨hno, -⟩ | ⟨src, hno, -⟩ | ⟨hno, -⟩
    · -- a valid instance is read as it is
      dsimp only at hwaited hbody hcopy htaskState hresp ⊢
      have hpre : Covered R prereqs (B.optimize (prereqs ++ (d₁.inst id).readPrereq)) :=
        (Covered.of_subset (by simp)).trans hwaited
      obtain ⟨hrec', hww', htask, hrw'⟩ := hafter task ((hreader.trans hpre).trans hbody)
      obtain ⟨hlists', hcross⟩ := hinv.read (releaseDep_readReleased himp d₁) hvalid
        (hreader.trans hpre) ((Covered.of_subset (by simp)).trans hwaited) hww' htask
      rw [← hstate] at hrec' hlists' hrw'
      refine ⟨hrec', ?_, List.pairwise_append.mpr ⟨h.ordered, List.pairwise_singleton _ _, ?_⟩⟩
      · rw [htaskState, hrw']
        exact hlists'
      · intro o ho o' ho' hconf
        rw [List.map_nil, List.nil_append, List.mem_singleton] at ho'
        rw [ho'] at hconf ⊢
        exact hcross o ho hconf
    · -- an invalid one is copied first
      obtain ⟨-, hsrcValid⟩ := LogicalData.findSourceInstanceId_some hsrc
      have hrl := readLists himp copyDone prereqs hm hsrcValid
      have hcopied := hcopy _ (List.mem_singleton_self _) hcopyDone
      obtain ⟨hcopyInv, hcopyCross⟩ := hinv.readCopy hrl hall hreader hcopied
      have hwaited' : Covered R (prereqs ++ copyDone) (B.optimize (prereqs ++ copyDone)) := hwaited
      have hpre : Covered R prereqs (B.optimize (prereqs ++ copyDone)) :=
        (Covered.of_subset (by simp)).trans hwaited'
      have hdone : Covered R copyDone (B.optimize (prereqs ++ copyDone)) :=
        (Covered.of_subset (by simp)).trans hwaited'
      obtain ⟨hrec', hww', htask, hrw'⟩ := hafter task ((hreader.trans hpre).trans hbody)
      obtain ⟨hlists', hcross⟩ := hcopyInv.read (releaseDep_readReleased himp _) hrl.selfValid
        (hreader.trans hpre) (by rw [hrl.self]; exact hdone)
        (hww'.append_left ((hdone.trans hbody).trans htask)) htask
      rw [← hstate, ← hrl.state] at hrec' hlists' hrw'
      refine ⟨hrec', ?_, List.pairwise_append.mpr ⟨h.ordered, ?_, ?_⟩⟩
      · rw [htaskState, hrw', ← List.append_assoc]
        exact hlists'
      · refine List.pairwise_append.mpr ⟨List.pairwise_singleton _ _,
          List.pairwise_singleton _ _, fun o ho o' ho' hconf => ?_⟩
        rw [List.mem_singleton.mp ho'] at hconf ⊢
        exact hcross o (List.mem_append_right _ ho) hconf
      · intro o ho o' ho' hconf
        rcases List.mem_append.mp ho' with ho' | ho'
        · rw [List.mem_singleton.mp ho'] at hconf ⊢
          exact hcopyCross o ho hconf
        · rw [List.mem_singleton.mp ho'] at hconf ⊢
          exact hcross o (List.mem_append_left _ ho) hconf
    · exact absurd rfl hno
    · exact absurd rfl hno
    · exact absurd hno (by simp)
    · exact absurd hno (by simp)
  · have hw := writeLists hmode hread (hinv.settled id) hmsi
    have hcopies : ∀ c ∈ u₀.copies, Covered R c.waits c.done := fun c hc =>
      hcopy c hc (hw.copy_done hc ▸ hcopyDone)
    have hrecorded : Covered R (recordWaits d.state mode) task.donePrereqs :=
      ((Covered.of_subset (List.Subset.trans hprereqs hw.prereqs_subset)).trans hwaited).trans hbody
    obtain ⟨hrec', hww', htask, hrw'⟩ := hafter task hrecorded
    have hslots : ∀ i, i ≠ id → d₁.inst i = d.inst i ∧ epoch i = s.epoch i := by
      intro i hi
      refine ⟨hother i hi, ?_⟩
      rw [hepoch]
      split
      · rfl
      · rw [Function.update_of_ne hi]
    have ho := (hkept hread).writeOrder hgrow hrec hsame hslots
      (fun hall => by rw [hepoch, if_pos hall]) hw hprereqs hnew hcopies hwaited hbody
      hrw' hww' htask
    obtain ⟨hcross, hpair⟩ := hold.write_ordered hw ho hall hread
    have hfinal : u₀.data.state = st := hw.state.trans hstate
    refine ⟨?_, ?_, List.pairwise_append.mpr ⟨h.ordered, hpair, hcross⟩⟩
    · rw [htaskState, hfinal]
      exact hrec'
    · rw [htaskState, hfinal]
      exact hold.write hw ho (releaseDep_released _ hread) hall hread

end Step

/-! ## 4. Reclaiming -/

section Reclaim

variable {R : E → E → Prop} {d : LogicalData E} (d' : LogicalData E) {epoch : ℕ → ℕ}
  {ops : List (Operation E)} {rw ww : List E} {id : ℕ}

/-- The slots a reclaim leaves alone. -/
structure Kept (n n' : DataInstance E) : Prop extends SameSlot n n' where
  valid : n'.msir ≠ .invalid → n.msir ≠ .invalid
  settled : n.msir ≠ .reduction → n'.msir ≠ .reduction
  readPrereq : n'.readPrereq = n.readPrereq
  writePrereq : n'.writePrereq = n.writePrereq

theorem ListInv.freed (h : ListInv R d epoch ops rw ww) (hrec : (d.inst id).reclaimable)
    (hid : (d'.inst id).allocated = false ∧ (d'.inst id).msir = .invalid)
    (hother : ∀ i, i ≠ id → Kept (d.inst i) (d'.inst i)) (hcount : d'.count = d.count)
    (href : d'.referenceInstanceId = d.referenceInstanceId) : ListInv R d' epoch ops rw ww := by
  refine ⟨?_, ?_, ?_, h.past, ?_, ?_, ?_⟩
  · intro i hi
    rcases eq_or_ne i id with rfl | hne
    · simp [hid.1] at hi
    · obtain hk := hother i hne
      rw [hk.allocated] at hi
      rw [hk.readPrereq, hk.writePrereq]
      exact h.touched i hi
  · intro i hi
    rcases eq_or_ne i id with rfl | hne
    · exact absurd hid.2 hi
    · obtain hk := hother i hne
      rw [hk.readPrereq]
      exact h.written i (hk.valid hi)
  · intro i hi
    rcases eq_or_ne i id with rfl | hne
    · simp [hid.1] at hi
    · obtain hk := hother i hne
      rw [hk.allocated] at hi
      rw [hk.readPrereq]
      exact h.known i hi
  · intro i hi
    rcases eq_or_ne i id with rfl | hne
    · exact absurd hid.2 hi
    · rw [(hother i hne).allocated]
      exact h.owned i ((hother i hne).valid hi)
  · intro i
    rcases eq_or_ne i id with rfl | hne
    · simp [hid.2]
    · exact (hother i hne).settled (h.settled i)
  · intro ref hr
    rw [href] at hr
    obtain ⟨h0, hpos, hall, hno⟩ := h.reference ref hr
    have hne : 0 ≠ id := by
      rintro rfl
      simp [hno] at hrec
    exact ⟨h0, by omega, by rw [(hother 0 hne).allocated, hall],
      by rw [(hother 0 hne).reclaimable, hno]⟩

variable [Std.Refl R] [IsTrans E R] {pending copyDone : List E}

/-- The write-back before the memory of a modified instance is given back. -/
theorem ListInv.writeBack (h : ListInv R d epoch ops rw ww) (hrec : (d.inst id).reclaimable)
    (hmod : (d.inst id).msir = .modified) (hreference : d.referenceInstanceId = some 0)
    (hww : ww ⊆ pending) (hrw : rw ⊆ pending)
    (hcopy : Covered R (pending ++ (d.inst 0).readPrereq ++ (d.inst id).readPrereq) copyDone)
    (hid : (d'.inst id).allocated = false ∧ (d'.inst id).msir = .invalid)
    (hzero : SameSlot (d.inst 0) (d'.inst 0) ∧ (d'.inst 0).msir = .modified ∧
      Covered R ((d.inst 0).readPrereq ++ copyDone) (d'.inst 0).readPrereq ∧
      (d'.inst 0).writePrereq = (d.inst 0).writePrereq)
    (hother : ∀ i, i ≠ id → i ≠ 0 → Kept (d.inst i) (d'.inst i)) (hcount : d'.count = d.count)
    (href : d'.referenceInstanceId = d.referenceInstanceId) :
    ListInv R d' epoch (ops ++ [Copy.operation epoch
        ⟨0, id, pending ++ (d.inst 0).readPrereq ++ (d.inst id).readPrereq, copyDone⟩]) rw ww ∧
      ∀ o ∈ ops, o.Conflict (Copy.operation epoch
        ⟨0, id, pending ++ (d.inst 0).readPrereq ++ (d.inst id).readPrereq, copyDone⟩) →
        Covered R o.done (pending ++ (d.inst 0).readPrereq ++ (d.inst id).readPrereq) := by
  set waits := pending ++ (d.inst 0).readPrereq ++ (d.inst id).readPrereq with hwaits
  set copy : Operation E := Copy.operation epoch ⟨0, id, waits, copyDone⟩ with hop
  obtain ⟨-, hpos, hall, hno⟩ := h.reference 0 hreference
  have hne : 0 ≠ id := by
    rintro rfl
    simp [hno] at hrec
  obtain ⟨hslot, hmsir, hread, hwrite⟩ := hzero
  have hold : Covered R (d.inst 0).readPrereq (d'.inst 0).readPrereq :=
    (Covered.of_subset (by simp)).trans hread
  have hdone : Covered R copyDone (d'.inst 0).readPrereq :=
    (Covered.of_subset (by simp)).trans hread
  -- whatever touched the reference instance is known to it or to the record
  have hbefore : ∀ o ∈ ops, o.Touches (0, epoch 0) → Covered R o.done waits := by
    intro o ho ht
    refine (h.known 0 hall o ho ht).trans (Covered.append_left ?_ ?_)
    · exact Covered.of_subset (by intro e; simp only [hwaits, List.mem_append]; tauto)
    · exact Covered.of_subset (List.Subset.trans hww (by simp [hwaits, List.append_assoc]))
  have htouch : ∀ {i}, i ≠ id → i ≠ 0 → ¬ copy.Touches (i, epoch i) := by
    rintro i hi hi0 (ht | ht)
    · simp only [hop, Copy.operation, Option.some.injEq, Prod.mk.injEq] at ht
      exact hi ht.1.symm
    · simp only [hop, Copy.operation, Option.some.injEq, Prod.mk.injEq] at ht
      exact hi0 ht.1.symm
  refine ⟨⟨?_, ?_, ?_, ?_, ?_, ?_, ?_⟩, ?_⟩
  · intro i hi o ho ht
    rcases eq_or_ne i id with rfl | hii
    · simp [hid.1] at hi
    rcases eq_or_ne i 0 with rfl | hi0
    · rw [hwrite]
      rcases List.mem_append.mp ho with ho | ho
      · refine (h.touched 0 hall o ho ht).trans (Covered.append_left (Covered.append_left ?_ ?_) ?_)
        · exact hold.mono_right (by simp [List.append_assoc])
        · exact Covered.of_subset (by intro e; simp only [List.mem_append]; tauto)
        · exact Covered.of_subset (by simp)
      · rw [List.mem_singleton.mp ho]
        exact hdone.mono_right (by simp [List.append_assoc])
    · obtain hk := hother i hii hi0
      rw [hk.allocated] at hi
      rw [hk.readPrereq, hk.writePrereq]
      rcases List.mem_append.mp ho with ho | ho
      · exact h.touched i hi o ho ht
      · rw [List.mem_singleton.mp ho] at ht
        exact absurd ht (htouch hii hi0)
  · intro i hi o ho ht
    rcases eq_or_ne i id with rfl | hii
    · exact absurd hid.2 hi
    rcases eq_or_ne i 0 with rfl | hi0
    · rcases List.mem_append.mp ho with ho | ho
      · exact ((hbefore o ho (Or.inr ht)).trans (hcopy.trans hdone)).mono_right (by simp)
      · rw [List.mem_singleton.mp ho]
        exact hdone.mono_right (by simp)
    · obtain hk := hother i hii hi0
      rw [hk.readPrereq]
      rcases List.mem_append.mp ho with ho | ho
      · exact h.written i (hk.valid hi) o ho ht
      · rw [List.mem_singleton.mp ho] at ht
        exact absurd (Or.inr ht) (htouch hii hi0)
  · intro i hi o ho ht
    rcases eq_or_ne i id with rfl | hii
    · simp [hid.1] at hi
    rcases eq_or_ne i 0 with rfl | hi0
    · rcases List.mem_append.mp ho with ho | ho
      · refine (h.known 0 hall o ho ht).trans (Covered.append_left ?_ ?_)
        · exact hold.mono_right (by simp)
        · exact Covered.of_subset (by simp)
      · rw [List.mem_singleton.mp ho]
        exact hdone.mono_right (by simp)
    · obtain hk := hother i hii hi0
      rw [hk.allocated] at hi
      rw [hk.readPrereq]
      rcases List.mem_append.mp ho with ho | ho
      · exact h.known i hi o ho ht
      · rw [List.mem_singleton.mp ho] at ht
        exact absurd ht (htouch hii hi0)
  · intro o ho b ht
    rcases List.mem_append.mp ho with ho | ho
    · exact h.past o ho b ht
    · rw [List.mem_singleton.mp ho] at ht
      rcases ht with ht | ht
      · rw [← Option.some.inj ht]
      · rw [← Option.some.inj ht]
  · intro i hi
    rcases eq_or_ne i id with rfl | hii
    · exact absurd hid.2 hi
    rcases eq_or_ne i 0 with rfl | hi0
    · rw [hslot.allocated, hall]
    · rw [(hother i hii hi0).allocated]
      exact h.owned i ((hother i hii hi0).valid hi)
  · intro i
    rcases eq_or_ne i id with rfl | hii
    · simp [hid.2]
    rcases eq_or_ne i 0 with rfl | hi0
    · simp [hmsir]
    · exact (hother i hii hi0).settled (h.settled i)
  · intro ref hr
    rw [href] at hr
    obtain ⟨h0, -, -, -⟩ := h.reference ref hr
    exact ⟨h0, by omega, by rw [hslot.allocated, hall], by rw [hslot.reclaimable, hno]⟩
  · rintro o ho ⟨b, ht, ht', hw⟩
    rcases ht' with ht' | ht'
    · -- the reclaimed instance: only its writers matter
      obtain rfl := Option.some.inj ht'
      have hwritten : o.writes = some (id, epoch id) := by
        rcases hw with hw | hw
        · exact hw
        · simp only [hop, Copy.operation, Option.some.injEq, Prod.mk.injEq] at hw
          exact absurd hw.1 hne
      refine (h.written id (by simp [hmod]) o ho hwritten).trans (Covered.append_left ?_ ?_)
      · exact Covered.of_subset (List.subset_append_right _ _)
      · exact Covered.of_subset (List.Subset.trans hrw (by simp [hwaits, List.append_assoc]))
    · obtain rfl := Option.some.inj ht'
      exact hbefore o ho ht

/-- **Reclaiming an instance keeps the invariant**, in any order that the operations so far
respect. -/
theorem FlowInv.reclaim [LinearOrder E] {B : EventBackend E}
    (himp : ∀ e e', B.implied e e' → R e e') {s s' : FlowState E} (h : FlowInv R s)
    (hrec : (s.data.inst id).reclaimable) (hcopyDone : copyDone ≠ [])
    (hr : s.reclaim B id copyDone = some s')
    (hresp : ∀ o ∈ s'.ops, Respects R o.toSubmission) : FlowInv R s' := by
  obtain ⟨u, hu, rfl⟩ := Option.map_eq_some_iff.mp hr
  obtain ⟨hww, hrw⟩ := h.record.pending
  unfold LogicalData.doReclaim at hu
  split at hu
  · exact absurd hu (by simp)
  rename_i v hv
  split at hu
  swap
  · exact absurd hu (by simp)
  obtain rfl := Option.some.inj hu
  dsimp only at hresp ⊢
  unfold LogicalData.reclaimUpdateState at hv
  split at hv
  · -- an invalid instance
    rename_i hm
    obtain rfl := Option.some.inj hv
    rw [List.map_nil, List.append_nil]
    refine ⟨h.record, h.lists.freed _ hrec ?_ (fun i hi => ?_) rfl rfl, h.ordered⟩
    · simp [hm, DataInstance.addReadPrereq]
    · simp only [LogicalData.modify_inst, hi, if_false]
      exact ⟨⟨rfl, rfl⟩, fun hi => hi, fun hi => hi, rfl, rfl⟩
  · -- a modified one is written back
    rename_i hm
    unfold LogicalData.reclaimModified at hv
    split at hv
    · exact absurd hv (by simp)
    rename_i ref href
    obtain ⟨rfl, -, -, hno⟩ := h.lists.reference ref href
    have hne : 0 ≠ id := by
      rintro rfl
      simp [hno] at hrec
    obtain rfl := Option.some.inj hv
    dsimp only at hresp ⊢
    have hcopy := (hresp (Copy.operation s.epoch ⟨0, id, _, copyDone⟩)
      (List.mem_append_right _ (List.mem_map_of_mem (List.mem_singleton_self _)))).covered hcopyDone
    have hmerge := DataInstance.mergePrereq_covers himp (s.data.inst 0).readPrereq copyDone
    obtain ⟨hlists, hcross⟩ := h.lists.writeBack
      (((((s.data.modify 0 fun n => { n with msir := .modified }).modify id fun n =>
        { n with msir := .invalid }).modify 0 fun n => n.addReadPrereq B copyDone).modify id
          fun n => n.addReadPrereq B copyDone).modify id fun n =>
            { n with allocated := false, used := false }) hrec hm href hww hrw hcopy
      (by simp [DataInstance.addReadPrereq, hne.symm])
      (by
        simp only [LogicalData.modify_inst, hne, if_false, if_true, DataInstance.addReadPrereq]
        exact ⟨⟨rfl, rfl⟩, trivial, hmerge, trivial⟩)
      (fun i hi hi0 => by
        simp only [LogicalData.modify_inst, hi, hi0, if_false]
        exact ⟨⟨rfl, rfl⟩, fun hi => hi, fun hi => hi, rfl, rfl⟩) rfl rfl
    refine ⟨h.record, hlists, List.pairwise_append.mpr
      ⟨h.ordered, List.pairwise_singleton _ _, fun o ho o' ho' hconf => ?_⟩⟩
    rw [List.map_singleton, List.mem_singleton] at ho'
    rw [ho'] at hconf ⊢
    exact hcross o ho hconf
  · -- a shared one: the others stay as they are
    obtain rfl := Option.some.inj hv
    simp only [LogicalData.reclaimShared, List.map_nil, List.append_nil]
    refine ⟨h.record, h.lists.freed _ hrec ?_ (fun i hi => ?_) rfl rfl, h.ordered⟩
    · simp [DataInstance.addReadPrereq]
    · simp only [LogicalData.modify_inst, LogicalData.modifyAll_inst, hi, if_false]
      refine ⟨⟨rfl, rfl⟩, fun hv => ?_, fun hv => ?_, rfl, rfl⟩
      · intro hinvalid
        simp [hinvalid] at hv
      · split
        · split <;> simp
        · exact hv
  · exact absurd hv (by simp)

end Reclaim

/-! ## 5. Runs -/

section Runs

variable [LinearOrder E] {B : EventBackend E}

omit [LinearOrder E] in
theorem FlowInv.init {R : E → E → Prop} {s : FlowState E} (h : s.Initial) : FlowInv R s := by
  cases h with
  | ofInstance place startEvents hm =>
    refine ⟨⟨Or.inl rfl, by simp, by simp [readerWaits]⟩, ?_, List.Pairwise.nil⟩
    refine ⟨by simp, by simp, by simp, by simp, ?_, ?_, by simp⟩
    · intro i hi
      rcases eq_or_ne i 0 with rfl | hne
      · simp
      · simp [hne] at hi
    · intro i
      rcases eq_or_ne i 0 with rfl | hne
      · rcases hm with rfl | rfl <;> simp
      · simp [hne]
  | ofShape =>
    refine ⟨⟨Or.inl rfl, by simp, by simp [readerWaits]⟩, ?_, List.Pairwise.nil⟩
    constructor <;> simp

theorem FlowState.ops_subset {s s' : FlowState E} {a : FlowAction E} (h : s.act B a = some s') :
    s.ops ⊆ s'.ops := by
  cases a with
  | task place size mode task copyDone =>
    obtain ⟨u, -, rfl⟩ := Option.map_eq_some_iff.mp h
    exact List.subset_append_left _ _
  | reclaim id copyDone =>
    obtain ⟨u, -, rfl⟩ := Option.map_eq_some_iff.mp h
    exact List.subset_append_left _ _

/-- **One action.**  The invariant is carried over to the order of the longer log, and kept. -/
theorem FlowInv.step {s s' : FlowState E} {a : FlowAction E} (h : FlowInv (Hb B.implied s.log) s)
    (huse : KeptUse B s a) (ha : s.act B a = some s') : FlowInv (Hb B.implied s'.log) s' := by
  have hgrow : ∀ e e', Hb B.implied s.log e e' → Hb B.implied s'.log e e' := fun e e' he =>
    he.mono (List.map_subset _ (FlowState.ops_subset ha))
  have himp : ∀ e e', B.implied e e' → Hb B.implied s'.log e e' := fun _ _ he => Hb.of_implied he
  have hresp : ∀ o ∈ s'.ops, Respects (Hb B.implied s'.log) o.toSubmission := fun o ho =>
    Hb.respects (List.mem_map_of_mem ho)
  cases a with
  | task place size mode task copyDone =>
    obtain ⟨⟨hmode, hcopyDone⟩, hkept⟩ := huse
    exact FlowInv.runTask hgrow himp h hmode hcopyDone hkept ha hresp
  | reclaim id copyDone =>
    obtain ⟨⟨-, hrec, hcopyDone⟩, -⟩ := huse
    exact (h.mono hgrow).reclaim himp hrec hcopyDone ha hresp

/-- **No run in which nothing is lost has a race**: whatever tasks access the data, in whatever modes
and at whatever places, and whatever instances are reclaimed in between, of two operations on one
buffer, one of them writing it, the one submitted first happens before the other. -/
theorem taskFlow_raceFree (B : EventBackend E) (s : FlowState E)
    (h : (taskFlow B (KeptUse B)).Reachable s) : s.RaceFree B := by
  have hinv : FlowInv (Hb B.implied s.log) s := by
    induction h with
    | init hs => exact FlowInv.init hs
    | step _ hstep ih => exact ih.step hstep.1 hstep.2
  exact hinv.ordered

/-- A data on the host that nobody has used. -/
def freshHost : FlowState ℕ :=
  { data :=
      { count := 1
        inst := fun i => if i = 0 then
            { used := true, dplace := .host, msir := .modified, allocated := true, readPrereq := [] }
          else {}
        referenceInstanceId := some 0 } }

omit [LinearOrder E] in
/-- The data is updated on a device and then read on the host. -/
theorem taskFlow_raceFree_updateRead :
    ∃ s, (taskFlow (.plain : EventBackend ℕ) (KeptUse .plain)).Reachable s ∧ s.ops.length = 4 ∧
      s.RaceFree .plain := by
  have hkept : OrderKept (Hb (fun _ _ => False) freshHost.log) freshHost.ops freshHost.epoch
      (freshHost.data.findInstanceId (.device 0)).2 (freshHost.data.findInstanceId (.device 0)).1
      .rw := by
    have hfind : freshHost.data.findInstanceId (.device 0) = (1, { freshHost.data with
        count := 2
        inst := fun i => if i = 1 then { used := true, dplace := .device 0 }
          else freshHost.data.inst i }) := rfl
    rw [hfind]
    refine ⟨fun i hi hall o ho => ?_, by simp [AccessMode.isWrite], by simp⟩
    exact absurd ho (by simp [freshHost])
  have hreach : ∃ s, (taskFlow (.plain : EventBackend ℕ) (KeptUse .plain)).Reachable s ∧
      s.ops.length = 4 := by
    refine ⟨_, .step (a := .task .host 8 .read ⟨[4], by simp⟩ [3])
      (.step (a := .task (.device 0) 8 .rw ⟨[2], by simp⟩ [1])
        (.init (.ofInstance .host [] (Or.inl rfl))) ⟨⟨⟨by decide, by simp⟩, fun _ => hkept⟩, rfl⟩)
      ⟨⟨⟨by decide, by simp⟩, fun hread => absurd rfl hread⟩, rfl⟩, rfl⟩
  obtain ⟨s, hs, hlen⟩ := hreach
  exact ⟨s, hs, hlen, taskFlow_raceFree .plain s hs⟩

omit [LinearOrder E] in
/-- The data is read on a device, reduced on the host, and read on the device again.  The record
takes the reduction for a reader, which need not wait for the other one; the protocol takes it for a
writer, and clears the list that says the device instance is being read.  So the second read copies
into the device instance while the first still reads it. -/
theorem taskFlow_reduce_races :
    ∃ s, (taskFlow (.plain : EventBackend ℕ) FlowUse).Reachable s ∧ ¬ s.RaceFree .plain := by
  have hreach : ∃ s, (taskFlow (.plain : EventBackend ℕ) FlowUse).Reachable s ∧
      s.ops = [⟨⟨[], [10]⟩, some (0, 0), some (1, 1)⟩, ⟨⟨[10], [1]⟩, some (1, 1), none⟩,
        ⟨⟨[10], [2]⟩, none, some (0, 0)⟩, ⟨⟨[2], [30]⟩, some (0, 0), some (1, 1)⟩,
        ⟨⟨[30], [3]⟩, some (1, 1), none⟩] := by
    refine ⟨_, .step (a := .task (.device 0) 8 .read ⟨[3], by simp⟩ [30])
      (.step (a := .task .host 8 .reduce ⟨[2], by simp⟩ [20])
        (.step (a := .task (.device 0) 8 .read ⟨[1], by simp⟩ [10])
          (.init (.ofInstance .host [] (Or.inl rfl))) ⟨⟨by decide, by simp⟩, rfl⟩)
        ⟨⟨by decide, by simp⟩, rfl⟩) ⟨⟨by decide, by simp⟩, rfl⟩, rfl⟩
  obtain ⟨s, hs, hops⟩ := hreach
  refine ⟨s, hs, fun hfree => ?_⟩
  have hlog : s.log = [⟨[], [10]⟩, ⟨[10], [1]⟩, ⟨[10], [2]⟩, ⟨[2], [30]⟩, ⟨[30], [3]⟩] := by
    simp [FlowState.log, hops]
  rw [FlowState.RaceFree, hops, hlog] at hfree
  have hord : Operation.Before (Hb (fun _ _ => False) _) _ _ :=
    (List.pairwise_cons.mp (List.pairwise_cons.mp hfree).2).1
      ⟨⟨[2], [30]⟩, some (0, 0), some (1, 1)⟩ (by simp) ⟨(1, 1), Or.inl rfl, Or.inr rfl, Or.inr rfl⟩
  -- nobody waits for the first read, so it is before nothing but itself
  obtain ⟨e, he, hb⟩ := hord 1 (by simp)
  rw [List.mem_singleton.mp he] at hb
  rcases Relation.ReflTransGen.cases_head hb with heq | ⟨e', hedge, -⟩
  · exact absurd heq (by decide)
  · rcases hedge with hno | ⟨o, ho, hwait, -⟩
    · exact hno
    · simp only [List.mem_cons, List.not_mem_nil, or_false] at ho
      rcases ho with rfl | rfl | rfl | rfl | rfl <;> simp at hwait

end Runs

end Cccl.Stf
