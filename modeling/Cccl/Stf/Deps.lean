/-
# The dependency record of a logical data keeps the sequential order

`enforce_stf_deps_before` and `enforce_stf_deps_after` (`logical_data.cuh`).  A logical data
remembers its accesses by one mode, one set of readers, one current writer and one previous
writer.  A task that accesses the data waits for what the record holds, and is then entered in it.

A writer that follows a writer waits for it alone; a writer that follows readers waits for them
and *not* for the writer before them; a reader waits for the writer before it.  Nothing older is
kept.  That is enough because what is kept already waits for the rest, and the invariant says
just this (`RecordInv`): in write mode the current writer comes after every access so far; in
read mode the readers together come after every access so far, and the previous writer after
every write.
-/
import Cccl.Stf.Event

namespace Cccl.Stf

variable {E : Type*}

/-! ## 1. The record and its two updates -/

/-- `struct logical_data_state`. -/
structure LogicalDataState (E : Type*) where
  currentMode : AccessMode := .none
  /-- Previous read accesses: a future writer has to wait for them. -/
  currentReaders : TaskSet E := {}
  /-- The task currently making a write access. -/
  currentWriter : Option (Task E) := Option.none
  /-- The writer all new readers need to synchronise with. -/
  previousWriter : Option (Task E) := Option.none

/-- The modes that `enforce_stf_deps_before` and `enforce_stf_deps_after` treat as writing. -/
def AccessMode.isWrite (mode : AccessMode) : Bool :=
  mode = .rw || mode = .write

/-- `enforce_stf_deps_before`: the events the task has to wait for and the record it leaves, or
nothing where an assertion fails.  `instancePrereqs` are the read and write prerequisites of the
accessed instance, which only a relaxed access looks at; `reconstructPrereqs` is what
`reconstruct_after_redux` adds when a relaxed phase ends here. -/
def enforceStfDepsBefore (instancePrereqs reconstructPrereqs : List E) (mode : AccessMode)
    (st : LogicalDataState E) : Option (List E × LogicalDataState E) :=
  if mode = .relaxed then
    -- A reduction only needs to wait for previous accesses on the data instance
    some (instancePrereqs, { st with currentMode := .relaxed })
  else
    let relaxed := decide (st.currentMode = .relaxed)
    let result := if relaxed then reconstructPrereqs else []
    let st := if relaxed then { st with currentMode := .none } else st
    if mode.isWrite then
      if st.currentMode = .write then
        -- Write after write
        match st.currentWriter with
        | some cw => some (result ++ cw.donePrereqs, { st with previousWriter := some cw })
        | none => none
      else
        -- Write after read: the writer depends on all current readers
        some (result ++ st.currentReaders.donePrereqs,
          { st with currentReaders := {}, currentMode := .write })
    else
      if st.currentMode = .write then
        -- Read after write: the current writer is moved into the previous one
        match st.currentWriter with
        | some cw => some (result ++ cw.donePrereqs,
            { st with previousWriter := some cw, currentWriter := none, currentMode := .none })
        | none => none
      else
        match st.previousWriter with
        | some pw => some (result ++ pw.donePrereqs, st)
        | none => some (result, st)

/-- `enforce_stf_deps_after`: enter the task in the record. -/
def enforceStfDepsAfter [LinearOrder E] (B : EventBackend E) (task : Task E) (mode : AccessMode)
    (st : LogicalDataState E) : LogicalDataState E :=
  if mode = .relaxed then st
  else if mode.isWrite then { st with currentWriter := some task }
  else { st with currentReaders := st.currentReaders.add B task }

/-! ## 2. A sequence of tasks -/

/-- One task's access to the logical data. -/
structure Access (E : Type*) where
  mode : AccessMode
  task : Task E

/-- An access with the prerequisite events it was given. -/
structure Performed (E : Type*) where
  access : Access E
  prereqs : List E

/-- The access as an operation: it waits for its prerequisites and completes with the events of
its task. -/
def Performed.submission (p : Performed E) : Submission E :=
  ⟨p.prereqs, p.access.task.donePrereqs⟩

/-- The tasks of a token, one after the other: no coherency protocol runs, so there is no
instance to wait for and nothing to reconstruct. -/
def runTasks [LinearOrder E] (B : EventBackend E) :
    LogicalDataState E → List (Access E) → Option (List (Performed E) × LogicalDataState E)
  | st, [] => some ([], st)
  | st, a :: rest =>
    match enforceStfDepsBefore [] [] a.mode st with
    | none => none
    | some (prereqs, st') =>
      match runTasks B (enforceStfDepsAfter B a.task a.mode st') rest with
      | none => none
      | some (ps, final) => some (⟨a, prereqs⟩ :: ps, final)

/-- `q` comes after `p`: whoever waits for the prerequisites of `q` waits for the completion of
`p`. -/
def Performed.Before (R : E → E → Prop) (p q : Performed E) : Prop :=
  Covered R p.access.task.donePrereqs q.prereqs

/-- Two accesses have to be ordered unless both only read. -/
def Performed.Conflict (p q : Performed E) : Prop :=
  p.access.mode.isWrite ∨ q.access.mode.isWrite

/-! ## 3. What the record knows of the past -/

/-- **The invariant of the record.**  `past` is the whole history of accesses. -/
structure RecordInv (R : E → E → Prop) (past : List (Performed E)) (st : LogicalDataState E) :
    Prop where
  mode : st.currentMode = .none ∨ st.currentMode = .write
  /-- In write mode the current writer comes after every access. -/
  writer : st.currentMode = .write → ∃ w, st.currentWriter = some w ∧
    st.currentReaders.donePrereqs = [] ∧
    ∀ p ∈ past, Covered R p.access.task.donePrereqs w.donePrereqs
  /-- In read mode the readers come after every access. -/
  readers : st.currentMode = .none →
    ∀ p ∈ past, Covered R p.access.task.donePrereqs st.currentReaders.donePrereqs
  /-- In read mode the previous writer comes after every write. -/
  previous : st.currentMode = .none → ∀ p ∈ past, p.access.mode.isWrite →
    ∃ w, st.previousWriter = some w ∧ Covered R p.access.task.donePrereqs w.donePrereqs

theorem RecordInv.init {R : E → E → Prop} : RecordInv R [] ({} : LogicalDataState E) where
  mode := Or.inl rfl
  writer h := by simp at h
  readers := by simp
  previous := by simp

/-- What the prerequisites of a new access have to cover: everything for a writer, the writes for
a reader. -/
def PrereqsCover (R : E → E → Prop) (past : List (Performed E)) (a : Access E)
    (prereqs : List E) : Prop :=
  ∀ p ∈ past, p.access.mode.isWrite ∨ a.mode.isWrite →
    Covered R p.access.task.donePrereqs prereqs

/-- The accesses before a new one, and the new one itself, are all covered by the completion of a
writer whose prerequisites cover the past. -/
theorem covered_by_writer {R : E → E → Prop} [Std.Refl R] [IsTrans E R]
    {past : List (Performed E)} {a : Access E} {prereqs : List E}
    (hcov : ∀ p ∈ past, Covered R p.access.task.donePrereqs prereqs)
    (hresp : Respects R (Performed.mk a prereqs).submission) :
    ∀ p ∈ past ++ [⟨a, prereqs⟩], Covered R p.access.task.donePrereqs a.task.donePrereqs := by
  intro p hp
  rcases List.mem_append.mp hp with hp | hp
  · exact (hcov p hp).trans (hresp.covered a.task.done_ne_nil)
  · rw [List.mem_singleton.mp hp]
    exact Covered.refl _

/-- The completion of a task is covered by any reader set it is added to, and so is all that the
set covered before. -/
theorem TaskSet.add_covers [LinearOrder E] {B : EventBackend E} {R : E → E → Prop} [Std.Refl R]
    (himp : ∀ e e', B.implied e e' → R e e') (s : TaskSet E) (t : Task E) :
    Covered R s.donePrereqs (s.add B t).donePrereqs ∧
      Covered R t.donePrereqs (s.add B t).donePrereqs := by
  have hopt := B.optimize_covers himp (s.donePrereqs ++ t.donePrereqs)
  refine ⟨fun e he => hopt e ?_, fun e he => hopt e ?_⟩
  · exact List.mem_append_left _ he
  · exact List.mem_append_right _ he

section Step

variable [LinearOrder E] {B : EventBackend E} {R : E → E → Prop} [Std.Refl R] [IsTrans E R]
  {past : List (Performed E)} {st : LogicalDataState E}

/-- **A writing access** waits for all that came before, and becomes the writer every later
access waits for. -/
theorem RecordInv.write_step (hinv : RecordInv R past st) {a : Access E}
    (hw : a.mode.isWrite) :
    ∃ prereqs st', enforceStfDepsBefore [] [] a.mode st = some (prereqs, st') ∧
      PrereqsCover R past a prereqs ∧
      (Respects R (Performed.mk a prereqs).submission →
        RecordInv R (past ++ [⟨a, prereqs⟩]) (enforceStfDepsAfter B a.task a.mode st')) := by
  have hnr : a.mode ≠ .relaxed := by rintro h; simp [h, AccessMode.isWrite] at hw
  rcases hinv.mode with hmode | hmode
  · -- write after read: the readers cover the whole past
    refine ⟨st.currentReaders.donePrereqs,
      { st with currentReaders := {}, currentMode := .write }, ?_, ?_, ?_⟩
    · simp [enforceStfDepsBefore, hnr, hw, hmode]
    · intro p hp _
      exact hinv.readers hmode p hp
    · intro hresp
      have hall := covered_by_writer (hinv.readers hmode) hresp
      constructor <;> simp_all [enforceStfDepsAfter]
  · -- write after write: the current writer covers the whole past
    obtain ⟨w, hcw, hnil, hcov⟩ := hinv.writer hmode
    refine ⟨w.donePrereqs, { st with previousWriter := some w }, ?_, ?_, ?_⟩
    · simp [enforceStfDepsBefore, hnr, hw, hmode, hcw]
    · intro p hp _
      exact hcov p hp
    · intro hresp
      have hall := covered_by_writer hcov hresp
      constructor <;> simp_all [enforceStfDepsAfter]

/-- **A reading access** waits for the writes that came before, and joins the readers. -/
theorem RecordInv.read_step (himp : ∀ e e', B.implied e e' → R e e')
    (hinv : RecordInv R past st) {a : Access E} (hr : a.mode = .read) :
    ∃ prereqs st', enforceStfDepsBefore [] [] a.mode st = some (prereqs, st') ∧
      PrereqsCover R past a prereqs ∧
      (Respects R (Performed.mk a prereqs).submission →
        RecordInv R (past ++ [⟨a, prereqs⟩]) (enforceStfDepsAfter B a.task a.mode st')) := by
  have hnw : a.mode.isWrite = false := by simp [hr, AccessMode.isWrite]
  rcases hinv.mode with hmode | hmode
  · -- read after read: the previous writer, if any, covers the writes
    obtain ⟨prereqs, hbefore, hcov⟩ : ∃ prereqs,
        enforceStfDepsBefore [] [] a.mode st = some (prereqs, st) ∧
          PrereqsCover R past a prereqs := by
      cases hpw : st.previousWriter with
      | none =>
        refine ⟨[], by simp [enforceStfDepsBefore, hr, AccessMode.isWrite, hmode, hpw], ?_⟩
        rintro p hp (hpwr | haw)
        · obtain ⟨w, hw, -⟩ := hinv.previous hmode p hp hpwr
          simp [hpw] at hw
        · simp [hnw] at haw
      | some pw =>
        refine ⟨pw.donePrereqs,
          by simp [enforceStfDepsBefore, hr, AccessMode.isWrite, hmode, hpw], ?_⟩
        rintro p hp (hpwr | haw)
        · obtain ⟨w, hw, hcov⟩ := hinv.previous hmode p hp hpwr
          rw [hpw, Option.some.injEq] at hw
          exact hw ▸ hcov
        · simp [hnw] at haw
    refine ⟨prereqs, st, hbefore, hcov, fun _ => ?_⟩
    have hadd := TaskSet.add_covers himp st.currentReaders a.task
    have hst : enforceStfDepsAfter B a.task a.mode st
        = { st with currentReaders := st.currentReaders.add B a.task } := by
      simp [enforceStfDepsAfter, hr, AccessMode.isWrite]
    rw [hst]
    refine ⟨hinv.mode, by simp [hmode], fun _ p hp => ?_, fun _ p hp hpw => ?_⟩
    · rcases List.mem_append.mp hp with hp | hp
      · exact (hinv.readers hmode p hp).trans hadd.1
      · rw [List.mem_singleton.mp hp]
        exact hadd.2
    · rcases List.mem_append.mp hp with hp | hp
      · exact hinv.previous hmode p hp hpw
      · rw [List.mem_singleton.mp hp] at hpw
        simp [hnw] at hpw
  · -- read after write: the writer becomes the previous one, and the reader covers it
    obtain ⟨w, hcw, hnil, hcov⟩ := hinv.writer hmode
    refine ⟨w.donePrereqs,
      { st with previousWriter := some w, currentWriter := none, currentMode := .none },
      by simp [enforceStfDepsBefore, hr, AccessMode.isWrite, hmode, hcw],
      fun p hp _ => hcov p hp, fun hresp => ?_⟩
    have hadd := TaskSet.add_covers himp st.currentReaders a.task
    have hreader := covered_by_writer hcov hresp
    have hst : enforceStfDepsAfter B a.task a.mode
          { st with previousWriter := some w, currentWriter := none, currentMode := .none }
        = { currentMode := .none, currentReaders := st.currentReaders.add B a.task,
            currentWriter := none, previousWriter := some w } := by
      simp [enforceStfDepsAfter, hr, AccessMode.isWrite]
    rw [hst]
    refine ⟨Or.inl rfl, by simp, fun _ p hp => (hreader p hp).trans hadd.2, fun _ p hp hpw => ?_⟩
    rcases List.mem_append.mp hp with hp | hp
    · exact ⟨w, rfl, hcov p hp⟩
    · rw [List.mem_singleton.mp hp] at hpw
      simp [hnw] at hpw

/-- **One access.**  The assertions hold, the prerequisites cover the accesses it conflicts with,
and the record stays faithful to the longer history. -/
theorem RecordInv.step (himp : ∀ e e', B.implied e e' → R e e') (hinv : RecordInv R past st)
    {a : Access E} (hmode : a.mode = .read ∨ a.mode = .write ∨ a.mode = .rw) :
    ∃ prereqs st', enforceStfDepsBefore [] [] a.mode st = some (prereqs, st') ∧
      PrereqsCover R past a prereqs ∧
      (Respects R (Performed.mk a prereqs).submission →
        RecordInv R (past ++ [⟨a, prereqs⟩]) (enforceStfDepsAfter B a.task a.mode st')) := by
  rcases hmode with hr | hw | hrw
  · exact hinv.read_step himp hr
  · exact hinv.write_step (by simp [hw, AccessMode.isWrite])
  · exact hinv.write_step (by simp [hrw, AccessMode.isWrite])

/-- **A run of accesses**, from any state of the record that is faithful to its past.  `R` is any
order that all the submissions of the run respect. -/
theorem RecordInv.run (himp : ∀ e e', B.implied e e' → R e e') :
    ∀ {accesses : List (Access E)} {past : List (Performed E)} {st final : LogicalDataState E}
      {ps : List (Performed E)},
      (∀ a ∈ accesses, a.mode = .read ∨ a.mode = .write ∨ a.mode = .rw) →
      RecordInv R past st → runTasks B st accesses = some (ps, final) →
      (∀ p ∈ ps, Respects R p.submission) →
      (∀ q ∈ ps, PrereqsCover R past q.access q.prereqs) ∧
        ps.Pairwise fun p q => p.Conflict q → p.Before R q
  | [], _, _, _, _, _, _, hrun, _ => by
    obtain ⟨rfl, -⟩ : _ = _ ∧ _ = _ := by simpa [runTasks] using hrun
    exact ⟨by simp, List.Pairwise.nil⟩
  | a :: rest, past, st, final, ps, hmodes, hinv, hrun, hresp => by
    obtain ⟨prereqs, st', hbefore, hcov, hnext⟩ := hinv.step (B := B) himp (hmodes a (by simp))
    rw [runTasks, hbefore] at hrun
    dsimp only at hrun
    split at hrun
    · exact absurd hrun (by simp)
    · rename_i qs final' hrest
      obtain ⟨rfl, rfl⟩ : ⟨a, prereqs⟩ :: qs = ps ∧ final' = final := by simpa using hrun
      have hinv' := hnext (hresp _ (by simp))
      obtain ⟨hpast, hpair⟩ := RecordInv.run himp (fun b hb => hmodes b (by simp [hb])) hinv'
        hrest (fun q hq => hresp q (by simp [hq]))
      refine ⟨fun q hq p hp => ?_, List.pairwise_cons.mpr ⟨fun q hq => ?_, hpair⟩⟩
      · rcases List.mem_cons.mp hq with rfl | hq
        · exact hcov p hp
        · exact hpast q hq p (by simp [hp])
      · exact hpast q hq ⟨a, prereqs⟩ (by simp)

end Step

/-- No assertion fails: a run of reads and writes goes through, one entry for each access.  Order
plays no part here, so the invariant is used with the relation that holds everywhere. -/
theorem runTasks_total [LinearOrder E] {B : EventBackend E} :
    ∀ {accesses : List (Access E)} {past : List (Performed E)} {st : LogicalDataState E},
      (∀ a ∈ accesses, a.mode = .read ∨ a.mode = .write ∨ a.mode = .rw) →
      RecordInv (fun _ _ => True) past st →
      ∃ ps final, runTasks B st accesses = some (ps, final) ∧
        ps.map Performed.access = accesses
  | [], _, st, _, _ => ⟨[], st, rfl, rfl⟩
  | a :: rest, past, st, hmodes, hinv => by
    have : Std.Refl (fun _ _ : E => True) := ⟨fun _ => trivial⟩
    have : IsTrans E (fun _ _ => True) := ⟨fun _ _ _ _ _ => trivial⟩
    obtain ⟨prereqs, st', hbefore, -, hnext⟩ :=
      hinv.step (B := B) (fun _ _ _ => trivial) (hmodes a (by simp))
    have hrest : ∀ b ∈ rest, b.mode = .read ∨ b.mode = .write ∨ b.mode = .rw :=
      fun b hb => hmodes b (by simp [hb])
    obtain ⟨ps, final, hrun, hmap⟩ := runTasks_total (B := B) hrest
      (hnext fun _ _ _ _ => trivial)
    exact ⟨⟨a, prereqs⟩ :: ps, final, by simp [runTasks, hbefore, hrun], by simp [hmap]⟩

/-- **Sequential task flow.**  For every sequence of accesses to one logical data that read, write
or do both, on every backend: all the accesses go through, and in the transitive closure of the
prerequisites they are given every writing access comes after all earlier accesses, and every
reading access after all earlier writing ones. -/
theorem sequentialTaskFlow_ordered [LinearOrder E] (B : EventBackend E)
    (accesses : List (Access E))
    (hmodes : ∀ a ∈ accesses, a.mode = .read ∨ a.mode = .write ∨ a.mode = .rw) :
    ∃ ps final, runTasks B {} accesses = some (ps, final) ∧
      ps.map Performed.access = accesses ∧
      ps.Pairwise fun p q => p.access.mode.isWrite ∨ q.access.mode.isWrite →
        Covered (Hb B.implied (ps.map Performed.submission))
          p.access.task.donePrereqs q.prereqs := by
  obtain ⟨ps, final, hrun, hmap⟩ := runTasks_total (B := B) hmodes RecordInv.init
  refine ⟨ps, final, hrun, hmap, ?_⟩
  have hresp : ∀ p ∈ ps, Respects (Hb B.implied (ps.map Performed.submission)) p.submission :=
    fun p hp => Hb.respects (List.mem_map_of_mem hp)
  exact (RecordInv.run (fun _ _ h => Hb.of_implied h) hmodes RecordInv.init hrun hresp).2

/-- The sequence write, read, read, write: each task completes with one event, its own number. -/
theorem sequentialTaskFlow_ordered_wrrw :
    ∃ ps final, runTasks .plain {}
        [⟨.write, ⟨[0], by simp⟩⟩, ⟨.read, ⟨[1], by simp⟩⟩, ⟨.read, ⟨[2], by simp⟩⟩,
          (⟨.write, ⟨[3], by simp⟩⟩ : Access ℕ)] = some (ps, final) ∧
      ps.Pairwise fun p q => p.access.mode.isWrite ∨ q.access.mode.isWrite →
        Covered (Hb (fun _ _ => False) (ps.map Performed.submission))
          p.access.task.donePrereqs q.prereqs := by
  obtain ⟨ps, final, hrun, -, hord⟩ := sequentialTaskFlow_ordered
    (.plain : EventBackend ℕ)
    [⟨.write, ⟨[0], by simp⟩⟩, ⟨.read, ⟨[1], by simp⟩⟩, ⟨.read, ⟨[2], by simp⟩⟩,
      ⟨.write, ⟨[3], by simp⟩⟩] (by simp)
  exact ⟨ps, final, hrun, hord⟩

end Cccl.Stf
