/-
# Fewer waits order as much

The host records events, submits work and makes streams wait for lists of events.  What the device
does in which order follows from the streams, each of which runs its entries in the order they were
submitted, and from the waits: an entry that waits for an event comes after the entry that recorded
it.

Read this order twice: once with the waits that were issued, and once as if every event of every
list were waited for.  The two are the same (`simplifiedWaits_order`).  An event left out of an
optimized list precedes one of its stream that is kept; an event of the waiting stream precedes the
wait anyway; and an entry of the table of past waits stands for an event of that stream, not older
than the one skipped, that the waiting stream has waited for (`Enforced`).
-/
import Cccl.Lib.Transition
import Cccl.Stf.StreamEvents

namespace Cccl.Stf

variable {D : StreamDriver}

/-! ## 1. The log and its order -/

/-- What the host submits: the record of an event, work, and a request to wait, with the list asked
for and the waits issued. -/
inductive StreamEntry (D : StreamDriver) where
  | record (e : StreamEvent D)
  | work (stream : ℕ)
  | join (dstream : AugmentedStream D) (requested issued : List (StreamEvent D))

namespace StreamEntry

/-- The stream an entry is submitted to. -/
def stream : StreamEntry D → ℕ
  | record e => e.dstream.stream
  | work s => s
  | join d _ _ => d.stream

/-- The events asked for. -/
def requested : StreamEntry D → List (StreamEvent D)
  | join _ l _ => l
  | _ => []

/-- The events waited for. -/
def issued : StreamEntry D → List (StreamEvent D)
  | join _ _ w => w
  | _ => []

end StreamEntry

/-- Entry `i` of the log directly precedes entry `j`: they are in one stream, or `j` waits for the
event that `i` records. -/
def DirectlyBefore (waits : StreamEntry D → List (StreamEvent D)) (log : List (StreamEntry D))
    (i j : ℕ) : Prop :=
  i < j ∧ ∃ x y, log[i]? = some x ∧ log[j]? = some y ∧
    (x.stream = y.stream ∨ ∃ e ∈ waits y, x = .record e)

/-- Entry `i` happens before entry `j`. -/
def HappensBefore (waits : StreamEntry D → List (StreamEvent D)) (log : List (StreamEntry D)) :
    ℕ → ℕ → Prop :=
  Relation.TransGen (DirectlyBefore waits log)

/-- The table of past waits, and the log. -/
structure StreamState (D : StreamDriver) where
  interactions : Interactions := fun _ => none
  log : List (StreamEntry D) := []

/-- What the host does. -/
inductive StreamAction (D : StreamDriver) where
  | record (e : StreamEvent D)
  | work (stream : ℕ)
  | join (dstream : AugmentedStream D) (l : EventList D)

/-- One submission.  Ids increase in recording order on each stream, and only events that have been
recorded are waited for. -/
inductive StreamStep : StreamState D → StreamAction D → StreamState D → Prop
  | record {s : StreamState D} (e : StreamEvent D)
      (hid : ∀ e', .record e' ∈ s.log → e'.dstream.stream = e.dstream.stream →
        e'.uniquePrereqId < e.uniquePrereqId) :
      StreamStep s (.record e) { s with log := s.log ++ [.record e] }
  | work {s : StreamState D} (stream : ℕ) :
      StreamStep s (.work stream) { s with log := s.log ++ [.work stream] }
  | join {s : StreamState D} {dstream : AugmentedStream D} {l : EventList D}
      {r : Interactions × List (StreamEvent D)} (hl : ∀ e ∈ l.payload, .record e ∈ s.log)
      (hr : joinWithStream dstream l s.interactions = some r) :
      StreamStep s (.join dstream l)
        ⟨r.1, s.log ++ [.join dstream l.payload r.2]⟩

/-- The runs of the host. -/
def streamRuns (D : StreamDriver) : Lts (StreamState D) (StreamAction D) where
  init s := s = {}
  step := StreamStep

/-! ## 2. Growing logs -/

section Grow

variable {waits : StreamEntry D → List (StreamEvent D)} {log : List (StreamEntry D)}
  {x : StreamEntry D}

theorem getElem?_append_of_some {i : ℕ} (h : log[i]? = some x) (l : List (StreamEntry D)) :
    (log ++ l)[i]? = some x := by
  rw [List.getElem?_append_left (List.getElem?_eq_some_iff.mp h).1, h]

theorem HappensBefore.append {i j : ℕ} (h : HappensBefore waits log i j)
    (l : List (StreamEntry D)) : HappensBefore waits (log ++ l) i j := by
  refine Relation.TransGen.mono ?_ _ _ h
  rintro i j ⟨hij, x, y, hx, hy, hxy⟩
  exact ⟨hij, x, y, getElem?_append_of_some hx l, getElem?_append_of_some hy l, hxy⟩

theorem HappensBefore.of_stream {i j : ℕ} {y : StreamEntry D} (hij : i < j)
    (hx : log[i]? = some x) (hy : log[j]? = some y) (hs : x.stream = y.stream) :
    HappensBefore waits log i j :=
  .single ⟨hij, x, y, hx, hy, Or.inl hs⟩

theorem getElem?_snoc {i : ℕ} {y : StreamEntry D} (h : (log ++ [x])[i]? = some y) :
    log[i]? = some y ∨ i = log.length ∧ y = x := by
  rcases lt_trichotomy i log.length with hlt | rfl | hgt
  · rw [List.getElem?_append_left hlt] at h
    exact Or.inl h
  · rw [List.getElem?_concat_length] at h
    exact Or.inr ⟨rfl, (Option.some.inj h).symm⟩
  · rw [List.getElem?_eq_none (by simp; omega)] at h
    exact absurd h (by simp)

end Grow

/-! ## 3. The table of past waits -/

section Table

variable {log : List (StreamEntry D)} {d : AugmentedStream D}

/-- The stream has waited for the event: in an entry of the log, or among the waits `cur` that it is
being made to wait for now, if it is the stream `now`. -/
def WaitedFor (log : List (StreamEntry D)) (now : ℕ) (cur : List (StreamEvent D)) (stream : ℕ)
    (e : StreamEvent D) : Prop :=
  (∃ (k : ℕ) (y : StreamEntry D), log[k]? = some y ∧ y.stream = stream ∧ e ∈ y.issued) ∨
    (stream = now ∧ e ∈ cur)

/-- **What an entry of the table guarantees**: the id is that of an event of the source stream that
the destination stream has waited for. -/
def TableOk (log : List (StreamEntry D)) (now : ℕ) (cur : List (StreamEvent D))
    (interactions : Interactions) : Prop :=
  ∀ src dst m, interactions (src, dst) = some m → src ≠ noStreamId ∧ dst ≠ noStreamId ∧
    ∃ e stream, .record e ∈ log ∧ e.dstream.id = src ∧ e.uniquePrereqId = m ∧
      D.streamId stream = dst ∧ WaitedFor log now cur stream e

/-- The event is of the waiting stream, or the stream has waited for one of its stream that is not
older. -/
def Enforced (log : List (StreamEntry D)) (now : ℕ) (cur : List (StreamEvent D))
    (e : StreamEvent D) : Prop :=
  e.dstream.stream = now ∨ ∃ e', Implied e e' ∧ .record e' ∈ log ∧ WaitedFor log now cur now e'

theorem WaitedFor.mono {now stream : ℕ} {cur cur' : List (StreamEvent D)} {e : StreamEvent D}
    (h : WaitedFor log now cur stream e) (hsub : cur ⊆ cur') : WaitedFor log now cur' stream e := by
  rcases h with h | ⟨hs, he⟩
  · exact Or.inl h
  · exact Or.inr ⟨hs, hsub he⟩

theorem TableOk.mono {now : ℕ} {cur cur' : List (StreamEvent D)} {interactions : Interactions}
    (h : TableOk log now cur interactions) (hsub : cur ⊆ cur') :
    TableOk log now cur' interactions := by
  intro src dst m hm
  obtain ⟨hsrc, hdst, e, stream, he, hid, hm, hs, hw⟩ := h src dst m hm
  exact ⟨hsrc, hdst, e, stream, he, hid, hm, hs, hw.mono hsub⟩

theorem Enforced.mono {now : ℕ} {cur cur' : List (StreamEvent D)} {e : StreamEvent D}
    (h : Enforced log now cur e) (hsub : cur ⊆ cur') : Enforced log now cur' e := by
  rcases h with h | ⟨e', himp, he', hw⟩
  · exact Or.inl h
  · exact Or.inr ⟨e', himp, he', hw.mono hsub⟩

theorem AugmentedStream.streamId_eq (a : AugmentedStream D) (h : a.id ≠ noStreamId) :
    D.streamId a.stream = a.id := by
  rcases a.known with hno | heq
  · exact absurd hno h
  · exact heq.symm

/-- **One event of a request**: it is waited for, or it need not be. -/
theorem insertDep_spec {st : Interactions × List (StreamEvent D)} {e : StreamEvent D}
    (h : TableOk log d.stream st.2 st.1) (he : .record e ∈ log) :
    ∀ r, insertDep d st e = r → TableOk log d.stream r.2 r.1 ∧ st.2 ⊆ r.2 ∧ r.2 ⊆ st.2 ++ [e] ∧
      Enforced log d.stream r.2 e := by
  rintro r rfl
  have hnew : WaitedFor log d.stream (st.2 ++ [e]) d.stream e := Or.inr ⟨rfl, by simp⟩
  have henf : Enforced log d.stream (st.2 ++ [e]) e := Or.inr ⟨e, ⟨rfl, le_rfl⟩, he, hnew⟩
  have hleft : st.2 ⊆ st.2 ++ [e] := List.subset_append_left _ _
  unfold insertDep
  split
  swap
  · rename_i hsame
    exact ⟨h, List.Subset.refl _, hleft, Or.inl (not_not.mp hsame).symm⟩
  unfold validateSyncAndUpdate
  split
  · -- an unknown stream: nothing is looked up
    exact ⟨h.mono hleft, hleft, List.Subset.refl _, henf⟩
  rename_i hids
  obtain ⟨hd, hs⟩ := not_or.mp hids
  -- entering the event in the table
  have hupdate : TableOk log d.stream (st.2 ++ [e])
      (Function.update st.1 (e.dstream.id, d.id) (some e.uniquePrereqId)) := by
    intro src dst m hm
    rcases eq_or_ne (src, dst) (e.dstream.id, d.id) with heq | hne
    · obtain ⟨rfl, rfl⟩ := Prod.mk.inj heq
      rw [Function.update_self] at hm
      exact ⟨hs, hd, e, d.stream, he, rfl, Option.some.inj hm, d.streamId_eq hd, hnew⟩
    · rw [Function.update_of_ne hne] at hm
      exact h.mono hleft src dst m hm
  cases hlast : st.1 (e.dstream.id, d.id) with
  | none => exact ⟨hupdate, hleft, List.Subset.refl _, henf⟩
  | some m =>
    dsimp only
    split
    · -- the table has an event that is not older
      rename_i hle
      obtain ⟨-, -, e', stream, he', hid, rfl, hstream, hw⟩ := h _ _ _ hlast
      obtain rfl : stream = d.stream := D.injective (hstream.trans (d.streamId_eq hd).symm)
      have hsrc : e.dstream.stream = e'.dstream.stream := by
        refine D.injective ?_
        rw [e.dstream.streamId_eq hs, e'.dstream.streamId_eq (by rw [hid]; exact hs), hid]
      exact ⟨h, List.Subset.refl _, hleft, Or.inr ⟨e', ⟨hsrc, hle⟩, he', hw⟩⟩
    · exact ⟨hupdate, hleft, List.Subset.refl _, henf⟩

/-- **The events of a request**: each of them is waited for, or need not be. -/
theorem foldl_insertDep_spec : ∀ (events : List (StreamEvent D))
    (st : Interactions × List (StreamEvent D)), TableOk log d.stream st.2 st.1 →
    (∀ e ∈ events, .record e ∈ log) →
    ∀ r, events.foldl (insertDep d) st = r → TableOk log d.stream r.2 r.1 ∧ st.2 ⊆ r.2 ∧
      r.2 ⊆ st.2 ++ events ∧ ∀ e ∈ events, Enforced log d.stream r.2 e
  | [], st, h, _, r, hr => by
    obtain rfl := hr
    exact ⟨h, List.Subset.refl _, by simp, by simp⟩
  | e :: events, st, h, hrec, r, hr => by
    obtain ⟨h1, hsub1, hout1, henf1⟩ := insertDep_spec h (hrec e (by simp)) _ rfl
    obtain ⟨h2, hsub2, hout2, henf2⟩ := foldl_insertDep_spec events _ h1
      (fun e' he' => hrec e' (List.mem_cons_of_mem _ he')) r hr
    refine ⟨h2, List.Subset.trans hsub1 hsub2, fun x hx => ?_, fun e' he' => ?_⟩
    · rcases List.mem_append.mp (hout2 hx) with hx | hx
      · have := hout1 hx
        simp only [List.mem_append, List.mem_cons] at this ⊢
        tauto
      · simp [hx]
    · rcases List.mem_cons.mp he' with rfl | he'
      · exact henf1.mono hsub2
      · exact henf2 e' he'

end Table

/-! ## 4. Every run -/

/-- **The invariant of a run.** -/
structure StreamInv (s : StreamState D) : Prop where
  table : ∀ now, TableOk s.log now [] s.interactions
  ordered : ∀ (i j : ℕ) (e e' : StreamEvent D), s.log[i]? = some (.record e) →
    s.log[j]? = some (.record e') → e.dstream.stream = e'.dstream.stream → i < j → e.uniquePrereqId < e'.uniquePrereqId
  subset : ∀ y ∈ s.log, y.issued ⊆ y.requested
  recorded : ∀ (k : ℕ) (y : StreamEntry D), s.log[k]? = some y →
    ∀ e ∈ y.requested, .record e ∈ s.log
  enforced : ∀ (k : ℕ) (y : StreamEntry D), s.log[k]? = some y → ∀ e ∈ y.requested,
    ∀ i, s.log[i]? = some (StreamEntry.record e) →
    HappensBefore StreamEntry.issued s.log i k

theorem TableOk.append {log : List (StreamEntry D)} {now : ℕ} {interactions : Interactions}
    (h : TableOk log now [] interactions) (l : List (StreamEntry D)) (now' : ℕ) :
    TableOk (log ++ l) now' [] interactions := by
  intro src dst m hm
  obtain ⟨hsrc, hdst, e, stream, he, hid, hm, hs, hw⟩ := h src dst m hm
  refine ⟨hsrc, hdst, e, stream, List.mem_append_left _ he, hid, hm, hs, ?_⟩
  rcases hw with ⟨k, y, hy, hys, hey⟩ | ⟨-, hno⟩
  · exact Or.inl ⟨k, y, getElem?_append_of_some hy l, hys, hey⟩
  · exact absurd hno (by simp)

theorem StreamInv.snoc {s : StreamState D} (h : StreamInv s) {x : StreamEntry D}
    (hx : x.requested = []) (hissued : x.issued = [])
    (hid : ∀ e, x = .record e → ∀ e', .record e' ∈ s.log →
      e'.dstream.stream = e.dstream.stream → e'.uniquePrereqId < e.uniquePrereqId) :
    StreamInv { s with log := s.log ++ [x] } := by
  have hask : ∀ {k : ℕ} {y : StreamEntry D} {e}, (s.log ++ [x])[k]? = some y → e ∈ y.requested →
      s.log[k]? = some y := by
    intro k y e hy he
    rcases getElem?_snoc hy with hy | ⟨-, rfl⟩
    · exact hy
    · simp [hx] at he
  refine ⟨fun now => (h.table now).append [x] now, ?_, ?_, ?_, ?_⟩
  · intro i j e e' hi hj hs hij
    rcases getElem?_snoc hj with hj | ⟨rfl, rfl⟩
    · rcases getElem?_snoc hi with hi | ⟨rfl, -⟩
      · exact h.ordered i j e e' hi hj hs hij
      · exact absurd (List.getElem?_eq_some_iff.mp hj).1 (by omega)
    · rcases getElem?_snoc hi with hi | ⟨rfl, -⟩
      · exact hid e' rfl e (List.mem_of_getElem? hi) hs
      · omega
  · intro y hy
    rcases List.mem_append.mp hy with hy | hy
    · exact h.subset y hy
    · obtain rfl := List.mem_singleton.mp hy
      simp [hissued]
  · intro k y hy e he
    exact List.mem_append_left _ (h.recorded k y (hask hy he) e he)
  · intro k y hy e he i hi
    have hold := hask hy he
    rcases getElem?_snoc hi with hi | ⟨rfl, rfl⟩
    · exact (h.enforced k y hold e he i hi).append [x]
    · -- an event asked for has been recorded before, and only once
      obtain ⟨j, hj, hlog⟩ := List.getElem_of_mem (h.recorded k y hold e he)
      have := hid e rfl e (List.mem_of_getElem? (List.getElem?_eq_some_iff.mpr ⟨hj, hlog⟩)) rfl
      omega

/-- The record of an event comes no later than that of a newer one of its stream. -/
theorem StreamInv.happensBefore_of_implied {s : StreamState D} (h : StreamInv s)
    {e e' : StreamEvent D} {i i' k : ℕ} {l : List (StreamEntry D)} (himp : Implied e e')
    (hi : s.log[i]? = some (StreamEntry.record e)) (hi' : s.log[i']? = some (StreamEntry.record e'))
    (hk : HappensBefore StreamEntry.issued (s.log ++ l) i' k) :
    HappensBefore StreamEntry.issued (s.log ++ l) i k := by
  rcases lt_trichotomy i i' with hlt | rfl | hgt
  · exact (HappensBefore.of_stream hlt (getElem?_append_of_some hi l)
      (getElem?_append_of_some hi' l) himp.1).trans hk
  · exact hk
  · have := h.ordered i' i e' e hi' hi himp.1.symm hgt
    have := himp.2
    omega

/-- **A request keeps the invariant.** -/
theorem StreamInv.join {s : StreamState D} (h : StreamInv s) {d : AugmentedStream D}
    {l : EventList D} {r : Interactions × List (StreamEvent D)}
    (hl : ∀ e ∈ l.payload, .record e ∈ s.log)
    (hr : joinWithStream d l s.interactions = some r) :
    StreamInv ⟨r.1, s.log ++ [.join d l.payload r.2]⟩ := by
  obtain ⟨events, hevents, hfold⟩ := Option.map_eq_some_iff.mp hr
  obtain ⟨hcover, hsub⟩ := EventList.optimize_spec hevents
  obtain ⟨htable, -, hout, henf⟩ := foldl_insertDep_spec events (s.interactions, []) (h.table d.stream)
    (fun e he => hl e (hsub he)) r hfold
  have hout' : r.2 ⊆ l.payload := List.Subset.trans (by simpa using hout) hsub
  set x : StreamEntry D := .join d l.payload r.2 with hx
  have hlast : (s.log ++ [x])[s.log.length]? = some x := List.getElem?_concat_length
  have hrecord : ∀ {i : ℕ} {e}, (s.log ++ [x])[i]? = some (StreamEntry.record e) →
      s.log[i]? = some (StreamEntry.record e) := by
    intro i e hi
    rcases getElem?_snoc hi with hi | ⟨-, hno⟩
    · exact hi
    · simp [hx] at hno
  refine ⟨fun now => ?_, ?_, ?_, ?_, ?_⟩
  · intro src dst m hm
    obtain ⟨hsrc, hdst, e, stream, he, hid, hm, hs, hw⟩ := htable src dst m hm
    refine ⟨hsrc, hdst, e, stream, List.mem_append_left _ he, hid, hm, hs, Or.inl ?_⟩
    rcases hw with ⟨k, y, hy, hys, hey⟩ | ⟨rfl, hcur⟩
    · exact ⟨k, y, getElem?_append_of_some hy _, hys, hey⟩
    · exact ⟨_, x, hlast, rfl, hcur⟩
  · intro i j e e' hi hj
    exact h.ordered i j e e' (hrecord hi) (hrecord hj)
  · intro y hy
    rcases List.mem_append.mp hy with hy | hy
    · exact h.subset y hy
    · obtain rfl := List.mem_singleton.mp hy
      exact hout'
  · intro k y hy e he
    refine List.mem_append_left _ ?_
    rcases getElem?_snoc hy with hy | ⟨-, rfl⟩
    · exact h.recorded k y hy e he
    · exact hl e he
  · intro k y hy e he i hi
    have hi' := hrecord hi
    rcases getElem?_snoc hy with hy | ⟨rfl, rfl⟩
    · exact (h.enforced k y hy e he i hi').append [x]
    have hlt : ∀ {i : ℕ} {z : StreamEntry D}, s.log[i]? = some z → i < s.log.length :=
      fun hz => (List.getElem?_eq_some_iff.mp hz).1
    obtain ⟨e₁, he₁, himp₁⟩ := hcover e he
    have hindex : ∀ {e'}, .record e' ∈ s.log → ∃ i', s.log[i']? = some (StreamEntry.record e') :=
      fun hmem => List.mem_iff_getElem?.mp hmem
    obtain ⟨i₁, hi₁⟩ := hindex (hl e₁ (hsub he₁))
    refine h.happensBefore_of_implied himp₁ hi' hi₁ ?_
    rcases henf e₁ he₁ with hsame | ⟨e₂, himp₂, hrec₂, hw⟩
    · exact HappensBefore.of_stream (hlt hi₁) (getElem?_append_of_some hi₁ _) hlast hsame
    obtain ⟨i₂, hi₂⟩ := hindex hrec₂
    refine h.happensBefore_of_implied himp₂ hi₁ hi₂ ?_
    rcases hw with ⟨k', y, hy, hys, hey⟩ | ⟨-, hcur⟩
    · -- the stream has waited for it in an earlier entry
      have hmem := List.mem_of_getElem? hy
      have hbefore := h.enforced k' y hy e₂ (h.subset y hmem hey) i₂ hi₂
      exact (hbefore.append [x]).trans
        (HappensBefore.of_stream (hlt hy) (getElem?_append_of_some hy _) hlast hys)
    · exact .single ⟨hlt hi₂, _, x, getElem?_append_of_some hi₂ _, hlast, Or.inr ⟨e₂, hcur, rfl⟩⟩

theorem StreamInv.of_reachable {s : StreamState D} (h : (streamRuns D).Reachable s) :
    StreamInv s := by
  refine h.invariant (P := StreamInv) ?_ ?_
  · rintro s rfl
    exact ⟨fun now src dst m hm => by simp at hm, by simp, by simp, by simp, by simp⟩
  · intro s a s' hs hstep
    cases hstep with
    | record e hid =>
      refine hs.snoc rfl rfl fun e₀ he₀ => ?_
      obtain rfl := StreamEntry.record.inj he₀
      exact hid
    | work stream => exact hs.snoc rfl rfl fun e he => by simp at he
    | join hl hr => exact hs.join hl hr

/-- **The simplified waits order exactly as much as waiting for every event of every list**, in every
run: an event of a list happens before all that is submitted to the stream after the request, and
the order of the waits issued is the order there would be if every event asked for were waited
for. -/
theorem simplifiedWaits_order (D : StreamDriver) (s : StreamState D)
    (h : (streamRuns D).Reachable s) :
    (∀ (i k j : ℕ) (d : AugmentedStream D) (requested issued : List (StreamEvent D))
      (e : StreamEvent D) (y : StreamEntry D), s.log[i]? = some (.record e) →
      s.log[k]? = some (.join d requested issued) → e ∈ requested → k < j → s.log[j]? = some y →
      y.stream = d.stream → HappensBefore StreamEntry.issued s.log i j) ∧
    ∀ i j, HappensBefore StreamEntry.issued s.log i j ↔
      HappensBefore StreamEntry.requested s.log i j := by
  have hinv := StreamInv.of_reachable h
  refine ⟨fun i k j d requested issued e y hi hk he hkj hj hs => ?_, fun i j => ⟨fun hb => ?_,
    fun hb => ?_⟩⟩
  · exact (hinv.enforced k _ hk e he i hi).trans (HappensBefore.of_stream hkj hk hj hs.symm)
  · refine Relation.TransGen.mono ?_ _ _ hb
    rintro i j ⟨hij, x, y, hx, hy, hxy⟩
    refine ⟨hij, x, y, hx, hy, hxy.imp_right ?_⟩
    rintro ⟨e, he, rfl⟩
    exact ⟨e, hinv.subset y (List.mem_of_getElem? hy) he, rfl⟩
  · -- each edge of the full order is a path of the issued one
    have hedge : ∀ {i j}, DirectlyBefore StreamEntry.requested s.log i j →
        HappensBefore StreamEntry.issued s.log i j := by
      rintro i j ⟨hij, x, y, hx, hy, hs | ⟨e, he, rfl⟩⟩
      · exact HappensBefore.of_stream hij hx hy hs
      · exact hinv.enforced j y hy e he i hx
    induction hb with
    | single he => exact hedge he
    | tail _ he ih => exact ih.trans (hedge he)

/-- A driver that numbers the streams from zero, leaving out the id that stands for an unknown one. -/
def countingDriver : StreamDriver where
  streamId s := if s < noStreamId then s else s + 1
  injective a b h := by
    simp only at h
    split at h <;> split at h <;> omega
  valid s := by
    split <;> omega

/-- The stream of a number, with its id known. -/
def knownStream (s : ℕ) : AugmentedStream countingDriver := ⟨s, _, Or.inr rfl⟩

/-- Two events are recorded on stream 1; stream 2 waits for both, and then for the first again, before
it is given work: one wait is issued, and the first record still happens before the work. -/
theorem simplifiedWaits_order_twoStreams :
    let e (n : ℕ) : StreamEvent countingDriver := ⟨knownStream 1, n⟩
    let log := [.record (e 0), .record (e 1), .join (knownStream 2) [e 1, e 0] [e 1],
      .join (knownStream 2) [e 0] [], .work 2]
    HappensBefore StreamEntry.issued log 0 4 ∧
      (HappensBefore StreamEntry.issued log 0 4 ↔ HappensBefore StreamEntry.requested log 0 4) := by
  intro e log
  let t : Interactions := Function.update (fun _ => none) (1, 2) (some 1)
  have h0 : (streamRuns countingDriver).Reachable ⟨fun _ => none, [.record (e 0)]⟩ :=
    .step (.init rfl) (.record (e 0) (by simp))
  have h1 : (streamRuns countingDriver).Reachable
      ⟨fun _ => none, [.record (e 0), .record (e 1)]⟩ :=
    .step h0 (.record (e 1) (by simp [e]))
  have hjoin : joinWithStream (knownStream 2) ⟨[e 1, e 0], false⟩ (fun _ => none) =
      some (t, [e 1]) := by
    simp [joinWithStream, EventList.optimize, List.mergeSort, factorize, e, insertDep, knownStream,
      validateSyncAndUpdate, countingDriver, noStreamId, t, List.MergeSort.Internal.splitInTwo]
  have hskip : joinWithStream (knownStream 2) ⟨[e 0], true⟩ t = some (t, []) := by
    simp [joinWithStream, EventList.optimize, e, insertDep, knownStream, validateSyncAndUpdate,
      countingDriver, noStreamId, t]
  have h2 := Lts.Reachable.step h1 (.join (by simp) hjoin)
  have h3 := Lts.Reachable.step h2 (.join (by simp) hskip)
  have hreach : (streamRuns countingDriver).Reachable ⟨t, log⟩ := .step h3 (.work 2)
  obtain ⟨hbefore, hsame⟩ := simplifiedWaits_order countingDriver ⟨t, log⟩ hreach
  exact ⟨hbefore 0 2 4 (knownStream 2) _ _ (e 0) (.work 2) rfl rfl (by simp) (by omega) rfl rfl,
    hsame 0 4⟩

end Cccl.Stf
