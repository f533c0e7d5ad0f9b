/-
# Events of the stream backend and how few of them are waited for

`stream_and_event` (`event_types.cuh`), `event_list::optimize` (`async_prereq.cuh`),
`unstable_unique` (`unstable_unique.cuh`) and `last_event_per_stream`
(`async_resources_handle.cuh`).

A stream waits for a list of events.  Before any wait is issued the list is optimized: of several
events of one stream only the one with the largest id is kept.  Then an event of the waiting stream
itself is skipped, and so is one that is not newer than the last event of its stream that the
waiting stream has been made to wait for, which a table keyed by the two streams remembers.

The table is keyed by what the driver says is the id of a stream.  A stream whose id is not known is
never looked up in it.
-/
import Mathlib.Algebra.Ring.Nat
import Mathlib.Data.List.GetD
import Mathlib.Data.List.Sort

namespace Cccl.Stf

/-! ## 1. Streams and events -/

/-- `k_no_stream_id`. -/
def noStreamId : ℕ := 2 ^ 64 - 1

/-- What `cuStreamGetId` promises: no two streams have one id, and no stream has the id that stands
for an unknown one. -/
structure StreamDriver where
  streamId : ℕ → ℕ
  injective : Function.Injective streamId
  valid : ∀ s, streamId s ≠ noStreamId

variable {D : StreamDriver}

/-- `struct augmented_stream`: a stream with its id, unless that could not be asked for. -/
structure AugmentedStream (D : StreamDriver) where
  stream : ℕ
  id : ℕ
  known : id = noStreamId ∨ id = D.streamId stream
  deriving DecidableEq

/-- `class stream_and_event`: where an event was recorded, and its id. -/
structure StreamEvent (D : StreamDriver) where
  dstream : AugmentedStream D
  uniquePrereqId : ℕ
  deriving DecidableEq

/-! ## 2. One event for each stream -/

section UnstableUnique

variable {α : Type*} (pred : α → α → Bool)

/-- The inner loop of `unstable_unique`: the last position before `last` that does not repeat the one
before it, unless `first` is reached. -/
def dropBack (a : ℕ → α) (first : ℕ) : ℕ → Option ℕ
  | 0 => none
  | last + 1 =>
    if first = last then none
    else if pred (a last) (a (last - 1)) then dropBack a first last
    else some last

/-- The outer loop, with at most `n` positions to go. -/
def uniqueLoop : ℕ → (ℕ → α) → ℕ → ℕ → Bool → (ℕ → α) × ℕ
  | 0, a, first, _, _ => (a, first)
  | n + 1, a, first, last, firstIsKnownDuplicate =>
    if first = last then (a, first)
    else if !firstIsKnownDuplicate && !pred (a first) (a (first - 1)) then
      uniqueLoop n a (first + 1) last firstIsKnownDuplicate
    else
      match dropBack pred a first last with
      | none => (a, first)
      | some last' =>
        uniqueLoop n (Function.update a first (a last')) (first + 1) last'
          (pred (a first) (a (first + 1)))

/-- `unstable_unique` on the positions below `n`: the new contents, and the new end. -/
def unstableUnique (a : ℕ → α) (n : ℕ) : (ℕ → α) × ℕ :=
  if n ≤ 1 then (a, n) else uniqueLoop pred n a 1 n false

end UnstableUnique

/-- `factorize` sorts by stream, and by descending id within a stream. -/
def factorizeLess (a b : StreamEvent D) : Bool :=
  if a.dstream.stream ≠ b.dstream.stream then a.dstream.stream < b.dstream.stream
  else b.uniquePrereqId < a.uniquePrereqId

/-- `stream_and_event::factorize`, with its assertion that there are two events or more. -/
def factorize : List (StreamEvent D) → Option (List (StreamEvent D))
  | [] => none
  | [_] => none
  | [a, b] =>
    if a.dstream.stream = b.dstream.stream then
      some [if a.uniquePrereqId < b.uniquePrereqId then b else a]
    else some [a, b]
  | e :: events =>
    let proxy := (e :: events).mergeSort fun a b => !factorizeLess b a
    let r := unstableUnique (fun a b => a.dstream.stream = b.dstream.stream)
      (fun i => proxy.getD i e) proxy.length
    some ((List.range r.2).map r.1)

/-- `class event_list`. -/
structure EventList (D : StreamDriver) where
  payload : List (StreamEvent D)
  optimized : Bool

/-- `event_list::optimize`, with no result where an assertion fails. -/
def EventList.optimize (l : EventList D) : Option (List (StreamEvent D)) :=
  if l.optimized then some l.payload
  else if l.payload = [] then none
  else factorize (l.payload.mergeSort fun a b => a.uniquePrereqId ≤ b.uniquePrereqId)

/-! ## 3. Waiting -/

/-- `last_event_per_stream`: for a pair of stream ids, the id of the last event waited for. -/
abbrev Interactions := ℕ × ℕ → Option ℕ

/-- `validate_sync_and_update`: whether the wait can be skipped, and the new table. -/
def validateSyncAndUpdate (dst src eventId : ℕ) (interactions : Interactions) :
    Bool × Interactions :=
  if dst = noStreamId ∨ src = noStreamId then (false, interactions)
  else
    match interactions (src, dst) with
    | some lastEventId =>
      if eventId ≤ lastEventId then (true, interactions)
      else (false, Function.update interactions (src, dst) (some eventId))
    | none => (false, Function.update interactions (src, dst) (some eventId))

/-- `insert_dep`, with the waits issued so far on behalf of one request. -/
def insertDep (dstream : AugmentedStream D) (s : Interactions × List (StreamEvent D))
    (e : StreamEvent D) : Interactions × List (StreamEvent D) :=
  if dstream.stream ≠ e.dstream.stream then
    let r := validateSyncAndUpdate dstream.id e.dstream.id e.uniquePrereqId s.1
    if r.1 then (r.2, s.2) else (r.2, s.2 ++ [e])
  else s

/-- `join_with_stream` and `stream_async_op::setup`: the list is optimized, and the stream waits for
each event that is left. -/
def joinWithStream (dstream : AugmentedStream D) (l : EventList D) (interactions : Interactions) :
    Option (Interactions × List (StreamEvent D)) :=
  l.optimize.map fun events => events.foldl (insertDep dstream) (interactions, [])

/-! ## 4. What is left of a list -/

section UnstableUnique

variable {α κ : Type*} [DecidableEq κ] (key : α → κ)

/-- The position begins a run of elements with one key. -/
def IsHead (s : ℕ → α) (i : ℕ) : Prop :=
  i = 0 ∨ key (s i) ≠ key (s (i - 1))

/-- Elements with one key are next to each other. -/
def Grouped (s : ℕ → α) (n : ℕ) : Prop :=
  ∀ i j k, i ≤ j → j ≤ k → k < n → key (s i) = key (s k) → key (s j) = key (s k)

variable {key} {s : ℕ → α} {n first : ℕ}

theorem dropBack_spec (key : α → κ) (a : ℕ → α) : ∀ last : ℕ, first < last →
    match dropBack (fun x y => decide (key x = key y)) a first last with
    | none => ∀ i, first < i → i < last → ¬ IsHead key a i
    | some last' => first < last' ∧ last' < last ∧ IsHead key a last' ∧
        ∀ i, last' < i → i < last → ¬ IsHead key a i
  | 0, h => absurd h (by omega)
  | last + 1, h => by
    rw [dropBack]
    rcases eq_or_ne first last with rfl | hne
    · rw [if_pos rfl]
      exact fun i h1 h2 => by omega
    rw [if_neg hne]
    rcases eq_or_ne (key (a last)) (key (a (last - 1))) with hdup | hhead
    · -- a repetition is dropped
      have hlast : ¬ IsHead key a last := by
        rintro (rfl | hhead)
        · omega
        · exact hhead hdup
      have hext : ∀ {i}, (i < last → ¬ IsHead key a i) → i < last + 1 → ¬ IsHead key a i := by
        intro i hi hlt
        rcases Nat.lt_succ_iff_lt_or_eq.mp hlt with hlt | rfl
        · exact hi hlt
        · exact hlast
      rw [if_pos (by simpa using hdup)]
      have ih := dropBack_spec key a last (by omega)
      split at ih
      · exact fun i h1 => hext (ih i h1)
      · obtain ⟨h1, h2, h3, h4⟩ := ih
        exact ⟨h1, by omega, h3, fun i hi => hext (h4 i hi)⟩
    · rw [if_neg (by simpa using hhead)]
      exact ⟨by omega, by omega, Or.inr hhead, fun i h1 h2 => by omega⟩

/-- Where the outer loop has got to: the positions up to `first` hold elements of the range, those
from `first` to `last` are as they were, and every run has its first element in one or the other. -/
structure UniqueInv (key : α → κ) (s : ℕ → α) (n : ℕ) (a : ℕ → α) (first last : ℕ)
    (firstIsKnownDuplicate : Bool) : Prop where
  pos : 0 < first
  le : first ≤ last
  last_le : last ≤ n
  same : ∀ i, first ≤ i → i < last → a i = s i
  kept : ∀ h < n, IsHead key s h → (∃ i < first, a i = s h) ∨ (first ≤ h ∧ h < last)
  origin : ∀ i < first, ∃ j < n, a i = s j
  known : first < last → if firstIsKnownDuplicate then ¬ IsHead key s first
    else (key (a first) = key (a (first - 1)) ↔ ¬ IsHead key s first)

/-- The loop ends with the first element of every run, and nothing from outside. -/
theorem uniqueLoop_spec (hs : Grouped key s n) :
    ∀ (m : ℕ) {a : ℕ → α} {first last : ℕ} {known : Bool}, last - first < m →
      UniqueInv key s n a first last known →
      ∀ r, uniqueLoop (fun x y => decide (key x = key y)) m a first last known = r →
        (∀ h < n, IsHead key s h → ∃ i < r.2, r.1 i = s h) ∧ ∀ i < r.2, ∃ j < n, r.1 i = s j
  | 0, _, _, _, _, hm, _, _, _ => absurd hm (by omega)
  | m + 1, a, first, last, known, hm, inv, r, hr => by
    rw [uniqueLoop] at hr
    rcases Nat.eq_or_lt_of_le inv.le with rfl | hlt
    · rw [if_pos rfl] at hr
      subst hr
      refine ⟨fun h hn hhead => ?_, inv.origin⟩
      rcases inv.kept h hn hhead with hkept | ⟨h1, h2⟩
      · exact hkept
      · omega
    rw [if_neg hlt.ne] at hr
    have hpos := inv.pos
    have hle := inv.last_le
    have hknown := inv.known hlt
    have hfirst : a first = s first := inv.same first le_rfl hlt
    split at hr
    · -- a new run: the element stays where it is
      rename_i hnew
      obtain ⟨hk, hp⟩ : known = false ∧ ¬ key (a first) = key (a (first - 1)) := by
        simpa using hnew
      subst hk
      refine uniqueLoop_spec hs m (by omega) ?_ r hr
      refine ⟨by omega, hlt, hle, fun i h1 h2 => inv.same i (by omega) h2, fun h hn hhead => ?_,
        fun i hi => ?_, fun hlt' => ?_⟩
      · rcases inv.kept h hn hhead with ⟨i, hi, heq⟩ | ⟨h1, h2⟩
        · exact Or.inl ⟨i, by omega, heq⟩
        · rcases Nat.eq_or_lt_of_le h1 with rfl | h1
          · exact Or.inl ⟨first, by omega, hfirst⟩
          · exact Or.inr ⟨h1, h2⟩
      · rcases Nat.lt_succ_iff_lt_or_eq.mp hi with hi | rfl
        · exact inv.origin i hi
        · exact ⟨i, by omega, hfirst⟩
      · simp only [Bool.false_eq_true, if_false, Nat.add_sub_cancel]
        rw [inv.same (first + 1) (by omega) hlt', hfirst]
        simp [IsHead]
    · -- a repetition: it is replaced by the last new run, if there is one
      rename_i hdup
      have hnohead : ¬ IsHead key s first := by
        cases known with
        | true => simpa using hknown
        | false =>
          simp only [Bool.false_eq_true, if_false] at hknown
          exact hknown.mp (by simpa using hdup)
      have hheads : ∀ {i}, first < i → i < last → (IsHead key a i ↔ IsHead key s i) := by
        intro i h1 h2
        rw [IsHead, IsHead, inv.same i (by omega) h2, inv.same (i - 1) (by omega) (by omega)]
      have hback := dropBack_spec key a last hlt
      split at hr
      · rename_i hnone
        rw [hnone] at hback
        subst hr
        refine ⟨fun h hn hhead => ?_, inv.origin⟩
        rcases inv.kept h hn hhead with hkept | ⟨h1, h2⟩
        · exact hkept
        · rcases Nat.eq_or_lt_of_le h1 with rfl | h1
          · exact absurd hhead hnohead
          · exact absurd ((hheads h1 h2).mpr hhead) (hback h h1 h2)
      · rename_i last' hsome
        rw [hsome] at hback
        obtain ⟨hf, hl, hhead', hrest⟩ := hback
        have hlast' : a last' = s last' := inv.same last' (by omega) hl
        rw [hheads hf hl] at hhead'
        refine uniqueLoop_spec hs m (by omega) ?_ r hr
        refine ⟨by omega, hf, by omega, fun i h1 h2 => ?_, fun h hn hhead => ?_, fun i hi => ?_,
          fun hlt' => ?_⟩
        · rw [Function.update_of_ne (by omega)]
          exact inv.same i (by omega) (by omega)
        · rcases inv.kept h hn hhead with ⟨i, hi, heq⟩ | ⟨h1, h2⟩
          · exact Or.inl ⟨i, by omega, by rw [Function.update_of_ne (by omega), heq]⟩
          · rcases Nat.eq_or_lt_of_le h1 with rfl | h1
            · exact absurd hhead hnohead
            · rcases lt_trichotomy h last' with hlt' | rfl | hgt
              · exact Or.inr ⟨h1, hlt'⟩
              · exact Or.inl ⟨first, by omega, by rw [Function.update_self, hlast']⟩
              · exact absurd ((hheads h1 h2).mpr hhead) (hrest h hgt h2)
        · rcases Nat.lt_succ_iff_lt_or_eq.mp hi with hi | rfl
          · rw [Function.update_of_ne (by omega)]
            exact inv.origin i hi
          · exact ⟨last', by omega, by rw [Function.update_self, hlast']⟩
        · have hnext : a (first + 1) = s (first + 1) := inv.same _ (by omega) (by omega)
          rw [Function.update_of_ne (by omega), Nat.add_sub_cancel, Function.update_self, hnext,
            hlast', hfirst]
          have hhead1 : IsHead key s (first + 1) ↔ key (s (first + 1)) ≠ key (s first) := by
            simp [IsHead]
          rw [hhead1, not_not]
          split
          · rename_i hsame
            exact (by simpa using hsame : key (s first) = key (s (first + 1))).symm
          · rename_i hdiff
            have hdiff' : key (s first) ≠ key (s (first + 1)) := by simpa using hdiff
            -- the last new run cannot have begun before its first element
            refine iff_of_false (fun heq => ?_) (fun heq => hdiff' heq.symm)
            rcases hhead' with h0 | hne
            · omega
            · exact hne (hs (first + 1) (last' - 1) last' (by omega) (by omega) (by omega) heq).symm

omit [DecidableEq κ] in
/-- Every element has the first element of its run at or before it. -/
theorem exists_head (key : α → κ) (s : ℕ → α) :
    ∀ i, ∃ h ≤ i, IsHead key s h ∧ key (s h) = key (s i)
  | 0 => ⟨0, le_rfl, Or.inl rfl, rfl⟩
  | i + 1 => by
    rcases eq_or_ne (key (s (i + 1))) (key (s i)) with hsame | hne
    · obtain ⟨h, hle, hhead, hkey⟩ := exists_head key s i
      exact ⟨h, by omega, hhead, by rw [hkey, hsame]⟩
    · exact ⟨i + 1, le_rfl, Or.inr (by simpa using hne), rfl⟩

/-- **What `unstable_unique` leaves**: elements of the range, and the first of each run. -/
theorem unstableUnique_spec (hs : Grouped key s n) :
    ∀ r, unstableUnique (fun x y => decide (key x = key y)) s n = r →
      (∀ i < n, ∃ j < r.2, ∃ h ≤ i, r.1 j = s h ∧ key (s h) = key (s i)) ∧
        ∀ j < r.2, ∃ i < n, r.1 j = s i := by
  rintro r rfl
  unfold unstableUnique
  split
  · exact ⟨fun i hi => ⟨i, hi, i, le_rfl, rfl, rfl⟩, fun j hj => ⟨j, hj, rfl⟩⟩
  rename_i hn
  have hinv : UniqueInv key s n s 1 n false := by
    refine ⟨by omega, by omega, le_rfl, fun _ _ _ => rfl, fun h hh _ => ?_,
      fun i hi => ⟨i, by omega, rfl⟩, fun _ => by simp [IsHead]⟩
    rcases Nat.eq_zero_or_pos h with rfl | hpos
    · exact Or.inl ⟨0, by omega, rfl⟩
    · exact Or.inr ⟨hpos, hh⟩
  obtain ⟨hheads, horigin⟩ := uniqueLoop_spec hs n (by omega) hinv _ rfl
  refine ⟨fun i hi => ?_, horigin⟩
  obtain ⟨h, hle, hhead, hkey⟩ := exists_head key s i
  obtain ⟨j, hj, heq⟩ := hheads h (by omega) hhead
  exact ⟨j, hj, h, hle, heq, hkey⟩

end UnstableUnique

/-- An event that has happened if `e'` has, both being events of one stream. -/
def Implied (e e' : StreamEvent D) : Prop :=
  e.dstream.stream = e'.dstream.stream ∧ e.uniquePrereqId ≤ e'.uniquePrereqId

theorem factorizeLess_sorted (l : List (StreamEvent D)) :
    (l.mergeSort fun a b => !factorizeLess b a).Pairwise fun a b =>
      a.dstream.stream < b.dstream.stream ∨ Implied b a := by
  have hle : ∀ a b : StreamEvent D, (!factorizeLess b a) = true ↔
      a.dstream.stream < b.dstream.stream ∨ Implied b a := by
    intro a b
    unfold factorizeLess Implied
    rcases lt_trichotomy a.dstream.stream b.dstream.stream with h | h | h
    · simp [h, h.ne', h.le]
    · simp [h]
    · simp [h, h.ne, h.le]
  refine (List.pairwise_mergeSort ?_ ?_ l).imp fun {a b} h => (hle a b).mp h
  · intro a b c hab hbc
    rw [hle] at hab hbc ⊢
    unfold Implied at *
    omega
  · intro a b
    rw [Bool.or_eq_true, hle, hle]
    unfold Implied
    omega

/-- **What `factorize` keeps**: for each event of the list one that is not older. -/
theorem factorize_spec {l l' : List (StreamEvent D)} (h : factorize l = some l') :
    (∀ e ∈ l, ∃ e' ∈ l', Implied e e') ∧ l' ⊆ l := by
  unfold factorize at h
  split at h
  · exact absurd h (by simp)
  · exact absurd h (by simp)
  · rename_i a b
    split at h
    · rename_i hstream
      obtain rfl := Option.some.inj h
      split <;> rename_i hid <;> simp [Implied, hstream] <;> omega
    · obtain rfl := Option.some.inj h
      simp [Implied]
  · rename_i e events _ _
    obtain rfl := Option.some.inj h
    have hsorted := factorizeLess_sorted (e :: events)
    set proxy := (e :: events).mergeSort fun a b => !factorizeLess b a with hproxy
    have hmem : ∀ x, x ∈ proxy ↔ x ∈ e :: events := fun x => by rw [hproxy, List.mem_mergeSort]
    have hget : ∀ {i}, i < proxy.length → proxy.getD i e ∈ proxy := fun {i} hi => by
      rw [List.getD_eq_getElem _ _ hi]
      exact List.getElem_mem hi
    have hpair : ∀ {i j}, i < j → j < proxy.length →
        (proxy.getD i e).dstream.stream < (proxy.getD j e).dstream.stream ∨
          Implied (proxy.getD j e) (proxy.getD i e) := by
      intro i j hij hj
      rw [List.getD_eq_getElem _ _ (hij.trans hj), List.getD_eq_getElem _ _ hj]
      exact List.pairwise_iff_getElem.mp hsorted i j _ _ hij
    have hgrouped : Grouped (fun e : StreamEvent D => e.dstream.stream)
        (fun i => proxy.getD i e) proxy.length := by
      intro i j k hij hjk hk hkey
      have hmono : ∀ {i j}, i ≤ j → j < proxy.length →
          (proxy.getD i e).dstream.stream ≤ (proxy.getD j e).dstream.stream := by
        intro i j hij hj
        rcases Nat.eq_or_lt_of_le hij with rfl | hlt
        · exact le_rfl
        · rcases hpair hlt hj with hlt | himp
          · exact hlt.le
          · exact himp.1.ge
      have h1 := hmono hij (by omega)
      have h2 := hmono hjk hk
      simp only at hkey ⊢
      omega
    obtain ⟨hcover, horigin⟩ := unstableUnique_spec hgrouped _ rfl
    refine ⟨fun x hx => ?_, fun x hx => ?_⟩
    · obtain ⟨i, hi, rfl⟩ := List.getElem_of_mem ((hmem x).mpr hx)
      obtain ⟨j, hj, head, hle, heq, hkey⟩ := hcover i hi
      refine ⟨_, List.mem_map.mpr ⟨j, List.mem_range.mpr hj, heq⟩, ?_⟩
      rw [← List.getD_eq_getElem _ e hi]
      rcases Nat.eq_or_lt_of_le hle with rfl | hlt
      · exact ⟨rfl, le_rfl⟩
      · rcases hpair hlt hi with hno | himp
        · omega
        · exact himp
    · obtain ⟨j, hj, rfl⟩ := List.mem_map.mp hx
      obtain ⟨i, hi, heq⟩ := horigin j (List.mem_range.mp hj)
      rw [heq]
      exact (hmem _).mp (hget hi)

/-- **An optimized list waits for all that the list did**, as far as events of one stream follow each
other in the order of their ids. -/
theorem EventList.optimize_spec {l : EventList D} {events : List (StreamEvent D)}
    (h : l.optimize = some events) :
    (∀ e ∈ l.payload, ∃ e' ∈ events, Implied e e') ∧ events ⊆ l.payload := by
  unfold EventList.optimize at h
  split at h
  · obtain rfl := Option.some.inj h
    exact ⟨fun e he => ⟨e, he, rfl, le_rfl⟩, List.Subset.refl _⟩
  split at h
  · exact absurd h (by simp)
  obtain ⟨hcover, hsub⟩ := factorize_spec h
  refine ⟨fun e he => hcover e (List.mem_mergeSort.mpr he), fun e he => ?_⟩
  exact List.mem_mergeSort.mp (hsub he)

end Cccl.Stf
