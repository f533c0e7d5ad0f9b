/-
# Runs of the allocator

A user calls the allocator in any order, and the runtime answers as it likes.  The counters are right in every state
that is reached (`reachable_balanced`).

What else is expected of the allocator fails in three ways, all of which need an error of the runtime.  `DeviceAllocate`
does not look at an error of `cudaMalloc` that is not `cudaErrorMemoryAllocation`: if the event can be created, there is
a live block without memory, and success is reported.  Where blocks are freed, an error of `cudaEventDestroy` leaves the
block cached though its memory is freed.  And `FreeAllCached` overwrites its error when it resets the device.  In runs
without these pairs of calls, and in which the user frees no pointer that is not theirs to free, all is well
(`reachable_keeps_no_freed`, `perform_truthful`).
-/
import Cccl.CachingAllocator.Rows
import Cccl.Lib.Transition

namespace Cccl.CachingAllocator

open CachingDeviceAllocator

/-! ## 1. Calls and runs -/

/-- A call of the user. -/
inductive Request
  | deviceAllocate (device : ℤ) (bytes : BitVec 64) (activeStream : ℕ)
  | deviceFree (device : ℤ) (dPtr : ℕ)
  | freeAllCached
  | setMaxCachedBytes (maxCachedBytes : BitVec 64)
  deriving DecidableEq

/-- What a call returns, and the pointer that it sets. -/
structure Outcome where
  error : CudaError
  dPtr : ℕ
  deriving DecidableEq

/-- Between two calls. -/
structure System where
  allocator : CachingDeviceAllocator
  history : History

def System.start (σ : System) : Session := ⟨σ.allocator, σ.history, []⟩

def Session.stop (s : Session) : System := ⟨s.allocator, s.history⟩

/-- How a call has ended, if it has. -/
def finish : Except Exit ℕ × Session → Option (Outcome × Session)
  | (.ok dPtr, s) => some (⟨.success, dPtr⟩, s)
  | (.error (.returns error _), s) => some (⟨error, 0⟩, s)
  | (.error .runsForever, _) => none

/-- A call that sets no pointer. -/
def withoutPointer (call : Call Unit) : Call ℕ := do
  call
  pure 0

def Request.call (runtime : Runtime) : Request → Call ℕ
  | .deviceAllocate device bytes activeStream => CachingAllocator.deviceAllocate runtime device bytes activeStream
  | .deviceFree device dPtr => withoutPointer (CachingAllocator.deviceFree runtime device dPtr)
  | .freeAllCached => withoutPointer (CachingAllocator.freeAllCached runtime)
  | .setMaxCachedBytes maxCachedBytes => withoutPointer (CachingAllocator.setMaxCachedBytes maxCachedBytes)

/-- A call, from its start to its end. -/
def perform (runtime : Runtime) (request : Request) (σ : System) : Option (Outcome × Session) :=
  finish (request.call runtime σ.start)

/-- All runs whose calls are of a `use`, which may speak of the state before the call and of what the runtime
answers. -/
def runs (runtime : Runtime) (use : System → Request → History → Prop) : Lts System Request where
  init σ := ∃ binGrowth minBin maxBin maxCachedBytes, σ = ⟨create binGrowth minBin maxBin maxCachedBytes, []⟩
  step σ request σ' := ∃ outcome s, perform runtime request σ = some (outcome, s) ∧ use σ request s.calls ∧ σ' = s.stop

variable {runtime : Runtime} {σ σ' : System} {request : Request} {outcome : Outcome} {s s' t : Session} {a : Action}
  {ok : Session → Action → Prop}

/-- The steps that a call may have. -/
def Allowed (runtime : Runtime) (σ : System) : Request → Session → Action → Prop
  | .deviceFree device dPtr, t, a => FreeStep σ.start (deviceOf runtime σ.history device) dPtr t a
  | _, _, a => ∀ dPtr, a ≠ .foreign dPtr

/-- What is true of the outcome in any case. -/
def Returned (outcome : Outcome) (t : Session) : Request → Prop
  | .deviceAllocate _ _ _ => outcome.error = .success → IsLive outcome.dPtr t
  | .freeAllCached => outcome.error = .success → t.allocator.cachedBlocks = [] ∨
      ∃ c c' calls, t.calls = c :: c' :: calls ∧ c.overwritten c' = true
  | _ => True

theorem withoutPointer_spec {p : Session → Prop} {call : Call Unit} {q : Unit → Session → Prop}
    {r : Exit → Session → Prop} (h : Program.Spec p call q r) :
    Program.Spec p (withoutPointer call) (fun _ => q ()) r :=
  h.bind fun _ => Program.Spec.pure fun _ ht => ht

theorem perform_of_spec {q : ℕ → Session → Prop} {r : Session → Prop}
    (hspec : Program.Spec (· = σ.start) (request.call runtime) q fun _ => r)
    (h : perform runtime request σ = some (outcome, t)) :
    outcome.error = .success ∧ q outcome.dPtr t ∨ outcome.error ≠ .success ∧ r t := by
  have hrun := hspec σ.start rfl
  unfold perform at h
  revert h hrun
  obtain ⟨res, s⟩ := request.call runtime σ.start
  cases res with
  | ok dPtr =>
    intro h hrun
    cases h
    exact Or.inl ⟨rfl, hrun⟩
  | error e =>
    cases e with
    | returns error failed =>
      intro h hrun
      cases h
      exact Or.inr ⟨failed, hrun⟩
    | runsForever => exact fun h => nomatch h

/-- **Every call is a row of steps**, and its outcome. -/
theorem perform_spec (h : perform runtime request σ = some (outcome, t)) :
    Leads (Allowed runtime σ request) σ.start t ∧ Returned outcome t request := by
  have hrefl : ∀ ok, ∀ s, s = σ.start → Leads ok σ.start s := by
    rintro ok s rfl
    exact Relation.ReflTransGen.refl
  cases request with
  | deviceAllocate device bytes activeStream =>
    have hspec := (@deviceAllocate_spec runtime σ.start
      (Allowed runtime σ (.deviceAllocate device bytes activeStream)) (fun _ _ => Action.noConfusion)
      (fun _ _ => Action.noConfusion) (fun _ _ => Action.noConfusion) device bytes activeStream).pre (hrefl _)
    rcases perform_of_spec hspec h with ⟨-, hleads, hlive⟩ | ⟨he, hleads⟩
    · exact ⟨hleads, fun _ => hlive⟩
    · exact ⟨hleads, fun he' => absurd he' he⟩
  | deviceFree device dPtr =>
    rcases perform_of_spec (withoutPointer_spec deviceFree_spec) h with ⟨-, hleads⟩ | ⟨-, hleads⟩
    · exact ⟨hleads, trivial⟩
    · exact ⟨hleads, trivial⟩
  | freeAllCached =>
    have hspec := (@freeAllCached_spec runtime σ.start (Allowed runtime σ .freeAllCached)
      (fun _ _ => Action.noConfusion) (fun _ _ => Action.noConfusion)).pre (hrefl _)
    rcases perform_of_spec (withoutPointer_spec hspec) h with ⟨-, hleads, hdone⟩ | ⟨he, hleads⟩
    · exact ⟨hleads, fun _ => hdone⟩
    · exact ⟨hleads, fun he' => absurd he' he⟩
  | setMaxCachedBytes maxCachedBytes =>
    cases h
    exact ⟨Relation.ReflTransGen.single ⟨.regular, .limit maxCachedBytes, fun _ => Action.noConfusion⟩, trivial⟩

/-! ## 2. Pairs of calls -/

theorem Step.calls_suffix (h : Step s a s') : s.calls <:+ s'.calls := by
  cases h with
  | quiet _ => exact List.suffix_cons _ _
  | release _ _ => exact List.suffix_cons _ _
  | refused _ _ => exact List.suffix_cons _ _
  | foreign _ _ => exact List.suffix_cons _ _
  | drop _ => exact (List.suffix_cons _ _).trans (List.suffix_cons _ _)
  | halfFreed _ _ => exact (List.suffix_cons _ _).trans (List.suffix_cons _ _)
  | acquire _ => exact (List.suffix_cons _ _).trans (List.suffix_cons _ _)
  | leak _ _ => exact (List.suffix_cons _ _).trans (List.suffix_cons _ _)
  | phantom _ => exact (List.suffix_cons _ _).trans (List.suffix_cons _ _)
  | _ => exact List.suffix_refl _

/-- A pair that is in no row of calls. -/
def Without (pair : RuntimeCall → RuntimeCall → Bool) (calls : History) : Prop :=
  calls.IsChain fun later earlier => pair later earlier = false

instance {pair : RuntimeCall → RuntimeCall → Bool} {calls : History} : Decidable (Without pair calls) :=
  inferInstanceAs (Decidable (calls.IsChain _))

/-- **Steps that a pair of calls gives away** are not in a row without this pair. -/
theorem Leads.without {pair : RuntimeCall → RuntimeCall → Bool} (h : Leads ok s s')
    (hpair : ∀ t t', Step t a t' → ¬ Without pair t'.calls) (hcalls : Without pair s'.calls) :
    Leads (fun t b => ok t b ∧ b ≠ a) s s' := by
  induction h with
  | refl => exact Relation.ReflTransGen.refl
  | tail _ hlast ih =>
    obtain ⟨b, hstep, hb⟩ := hlast
    refine (ih (hcalls.suffix hstep.calls_suffix)).step hstep ⟨hb, ?_⟩
    rintro rfl
    exact hpair _ _ hstep hcalls

theorem phantom_pair (t t' : Session) (h : Step t .phantom t') : ¬ Without RuntimeCall.phantom t'.calls := by
  cases h with
  | phantom he =>
    intro hcalls
    exact absurd (List.isChain_cons_cons.mp hcalls).1 (by simpa [RuntimeCall.phantom] using he)

theorem halfFreed_pair (t t' : Session) (h : Step t .halfFreed t') : ¬ Without RuntimeCall.halfFreed t'.calls := by
  cases h with
  | halfFreed hcached he =>
    intro hcalls
    exact absurd (List.isChain_cons_cons.mp hcalls).1 (by simpa [RuntimeCall.halfFreed] using he)

/-! ## 3. Scripted runs -/

/-- One device, and the answers in the order of the calls. -/
def scripted (error : ℕ → CudaError) : Runtime where
  error h := error h.length
  device _ := 0
  address h := ⟨(allocated h).sup id + 1, Nat.succ_ne_zero _, fun hmem =>
    absurd (Finset.le_sup (f := id) hmem) (Nat.not_succ_le_self _)⟩
  event h := h.length + 1

/-- The default configuration. -/
def initial : System := ⟨create 8 3 7 6291455, []⟩

/-- The requests in a row, if all are of the `use`. -/
def performAll (runtime : Runtime) (use : System → Request → History → Bool) :
    List Request → Outcome → System → Option (Outcome × System)
  | [], outcome, σ => some (outcome, σ)
  | request :: requests, _, σ =>
    (perform runtime request σ).bind fun (outcome, s) =>
      if use σ request s.calls then performAll runtime use requests outcome s.stop else none

theorem reachable_performAll {use : System → Request → History → Bool} {requests : List Request}
    {outcome outcome' : Outcome} (h : performAll runtime use requests outcome σ = some (outcome', σ'))
    (hσ : (runs runtime fun σ request calls => use σ request calls = true).Reachable σ) :
    (runs runtime fun σ request calls => use σ request calls = true).Reachable σ' := by
  induction requests generalizing outcome σ with
  | nil =>
    cases h
    exact hσ
  | cons request requests ih =>
    obtain ⟨⟨outcome₁, s⟩, hperform, hrest⟩ := Option.bind_eq_some_iff.mp h
    dsimp only at hrest
    split at hrest
    · rename_i huse
      exact ih hrest (hσ.step ⟨outcome₁, s, hperform, huse, rfl⟩)
    · exact absurd hrest (by simp)

theorem reachable_initial {use : System → Request → History → Prop} : (runs runtime use).Reachable initial :=
  Lts.Reachable.init ⟨8, 3, 7, 6291455, rfl⟩

theorem reachable_mono {use use' : System → Request → History → Prop}
    (huse : ∀ σ request calls, use σ request calls → use' σ request calls) (h : (runs runtime use).Reachable σ) :
    (runs runtime use').Reachable σ := by
  induction h with
  | init hσ => exact Lts.Reachable.init hσ
  | step _ hstep ih =>
    obtain ⟨outcome, s, hperform, hcalls, rfl⟩ := hstep
    exact ih.step ⟨outcome, s, hperform, huse _ _ _ hcalls, rfl⟩

/-- All calls of the runtime succeed. -/
def willing : Runtime := scripted fun _ => .success

/-! ## 4. The counters -/

/-- The counters are the sizes of the blocks, as a `size_t` has them. -/
def Balanced (A : CachingDeviceAllocator) : Prop := ∀ device,
  (A.cachedBytes device).free.toNat =
    ((A.cachedBlocks.filter (·.device = device)).map (·.bytes.toNat)).sum % 2 ^ 64 ∧
  (A.cachedBytes device).live.toNat =
    ((A.liveBlocks.filter (·.device = device)).map (·.bytes.toNat)).sum % 2 ^ 64

theorem toNat_sizes (device : ℤ) (l : List BlockDescriptor) : (sizes device l).toNat =
    ((l.filter (·.device = device)).map (·.bytes.toNat)).sum % 2 ^ 64 := by
  unfold sizes
  induction l.filter (·.device = device) with
  | nil => rfl
  | cons b l ih => rw [List.map_cons, List.sum_cons, BitVec.toNat_add, ih, List.map_cons, List.sum_cons, Nat.add_mod_mod]

theorem Accounts.balanced {A : CachingDeviceAllocator} (h : Accounts A) : Balanced A := fun device =>
  ⟨(congrArg BitVec.toNat (h.free device)).trans (toNat_sizes device _),
    (congrArg BitVec.toNat (h.live device)).trans (toNat_sizes device _)⟩

theorem reachable_accounts {use : System → Request → History → Prop} (h : (runs runtime use).Reachable σ) :
    Accounts σ.allocator := by
  refine h.invariant (P := fun σ => Accounts σ.allocator) ?_ ?_
  · rintro σ ⟨binGrowth, minBin, maxBin, maxCachedBytes, rfl⟩
    exact ⟨fun _ => rfl, fun _ => rfl⟩
  · rintro σ request σ' hσ ⟨outcome, s, hperform, -, rfl⟩
    exact (perform_spec hperform).1.invariant (P := fun s => Accounts s.allocator)
      (fun hs hstep _ => hstep.accounts hs) hσ

/-! ## 5. The pointers -/

/-- A call without phantoms, that leaves no freed memory in the cache, and in which the user frees what is live, or what
is no business of the allocator. -/
def Careful (runtime : Runtime) (σ : System) (request : Request) (calls : History) : Prop :=
  Without RuntimeCall.phantom calls ∧ match request with
    | .deviceFree device dPtr =>
      (∃ b ∈ σ.allocator.liveBlocks, b.device = deviceOf runtime σ.history device ∧ b.dPtr = dPtr) ∨
        dPtr ∉ pointers σ.allocator ∧ dPtr ∉ freed σ.history
    | _ => Without RuntimeCall.halfFreed calls

instance {calls : History} : Decidable (Careful runtime σ request calls) :=
  match request with
  | .deviceFree _ _ => inferInstanceAs (Decidable (_ ∧ (_ ∨ _ ∧ _)))
  | .deviceAllocate _ _ _ => inferInstanceAs (Decidable (_ ∧ _))
  | .freeAllCached => inferInstanceAs (Decidable (_ ∧ _))
  | .setMaxCachedBytes _ => inferInstanceAs (Decidable (_ ∧ _))

/-- Steps of the calls other than `DeviceFree`. -/
theorem sound_of_leads (h : Leads (fun _ b => ∀ dPtr, b ≠ .foreign dPtr) s t) (hs : Sound s)
    (hphantom : Without RuntimeCall.phantom t.calls) (hhalf : Without RuntimeCall.halfFreed t.calls) : Sound t := by
  refine ((h.without phantom_pair hphantom).without halfFreed_pair hhalf).invariant ?_ hs
  rintro t a t' ht hstep ⟨⟨hforeign, hphantom⟩, hhalf⟩
  refine hstep.sound ht ?_
  cases a with
  | regular => trivial
  | phantom => exact absurd rfl hphantom
  | halfFreed => exact absurd rfl hhalf
  | foreign dPtr => exact absurd rfl (hforeign dPtr)

/-- **A careful call keeps the blocks sound.** -/
theorem perform_sound (h : perform runtime request σ = some (outcome, t))
    (hcareful : Careful runtime σ request t.calls) (hσ : Sound σ.start) : Sound t := by
  obtain ⟨hleads, -⟩ := perform_spec h
  obtain ⟨hphantom, hrest⟩ := hcareful
  cases request with
  | deviceFree device dPtr =>
    refine hleads.invariant (fun {t a t'} ht hstep ha => hstep.sound ht ?_) hσ
    rcases ha with rfl | ⟨rfl, hallocator, hfreed, hnotlive⟩
    · trivial
    · rcases hrest with ⟨b, hb, hmatch⟩ | ⟨hpointers, hunfreed⟩
      · exact absurd hmatch (hnotlive b hb)
      · change dPtr ∉ pointers t.allocator ∧ dPtr ∉ freed t.history
        rw [hallocator, hfreed]
        exact ⟨hpointers, hunfreed⟩
  | _ => exact sound_of_leads hleads hσ hphantom hrest

theorem reachable_sound (h : (runs runtime (Careful runtime)).Reachable σ) : Sound σ.start := by
  refine h.invariant (P := fun σ => Sound σ.start) ?_ ?_
  · rintro σ ⟨binGrowth, minBin, maxBin, maxCachedBytes, rfl⟩
    exact ⟨List.nodup_nil, fun _ hmem => absurd hmem List.not_mem_nil, trivial⟩
  · rintro σ request σ' hσ ⟨outcome, s, hperform, hcareful, rfl⟩
    have hsound := perform_sound hperform hcareful hσ
    exact ⟨hsound.nodup, hsound.used, hsound.freedOnce⟩

/-- **The counters are right in all runs**, and in careful ones no two blocks have the same pointer. -/
theorem reachable_balanced (runtime : Runtime) {σ : System}
    (h : (runs runtime fun _ _ _ => True).Reachable σ) :
    Balanced σ.allocator ∧ ((runs runtime (Careful runtime)).Reachable σ → (pointers σ.allocator).Nodup) :=
  ⟨(reachable_accounts h).balanced, fun hcareful => (reachable_sound hcareful).nodup⟩

theorem exists_careful (requests : List Request)
    (h : (performAll willing (fun σ request calls => decide (Careful willing σ request calls)) requests ⟨.success, 0⟩
      initial).isSome = true) :
    ∃ outcome σ, performAll willing (fun σ request calls => decide (Careful willing σ request calls)) requests
      ⟨.success, 0⟩ initial = some (outcome, σ) ∧ (runs willing (Careful willing)).Reachable σ := by
  obtain ⟨⟨outcome, σ⟩, hσ⟩ := Option.isSome_iff_exists.mp h
  have hreachable := reachable_performAll hσ reachable_initial
  simp only [decide_eq_true_eq] at hreachable
  exact ⟨outcome, σ, hσ, hreachable⟩

/-- Two blocks, of which one is given back. -/
theorem balanced_after_free : ∃ outcome σ,
    performAll willing (fun σ request calls => decide (Careful willing σ request calls))
      [.deviceAllocate 0 512 0, .deviceAllocate 0 100 0, .deviceFree 0 1] ⟨.success, 0⟩ initial = some (outcome, σ) ∧
    Balanced σ.allocator ∧ (pointers σ.allocator).Nodup := by
  obtain ⟨outcome, σ, hσ, hreachable⟩ := exists_careful
    [.deviceAllocate 0 512 0, .deviceAllocate 0 100 0, .deviceFree 0 1] (by decide)
  have hall := reachable_balanced willing (reachable_mono (fun _ _ _ _ => trivial) hreachable)
  exact ⟨outcome, σ, hσ, hall.1, hall.2 hreachable⟩

/-- `cudaMalloc` fails twice, with another error than `cudaErrorMemoryAllocation`: there are two live blocks without
memory. -/
theorem not_forall_distinct : ¬ ∀ (runtime : Runtime) (σ : System), (runs runtime fun _ _ _ => True).Reachable σ →
    Balanced σ.allocator ∧ (pointers σ.allocator).Nodup := by
  intro h
  have hrun : (performAll (scripted fun n => if n % 4 = 2 then .other 1 else .success) (fun _ _ _ => true)
      [.deviceAllocate 0 512 0, .deviceAllocate 0 512 0] ⟨.success, 0⟩ initial).map
        (fun x => pointers x.2.allocator) = some [0, 0] := by decide
  obtain ⟨⟨outcome, σ⟩, hσ, hpointers⟩ := Option.map_eq_some_iff.mp hrun
  have hreachable := reachable_mono (fun _ _ _ _ => trivial) (reachable_performAll hσ reachable_initial)
  have hnodup := (h _ σ hreachable).2
  rw [show pointers σ.allocator = [0, 0] from hpointers] at hnodup
  exact absurd hnodup (by decide)

/-- The allocator keeps no freed memory, frees nothing twice, and gives no freed memory to the user. -/
structure KeepsNoFreed (runtime : Runtime) (σ : System) : Prop where
  kept : ∀ b ∈ σ.allocator.liveBlocks ++ σ.allocator.cachedBlocks, b.dPtr ∉ freed σ.history
  once : FreedOnce σ.history
  returned : ∀ device bytes activeStream outcome s,
    perform runtime (.deviceAllocate device bytes activeStream) σ = some (outcome, s) →
    Careful runtime σ (.deviceAllocate device bytes activeStream) s.calls →
    outcome.error = .success → outcome.dPtr ∉ freed s.history

/-- **In careful runs, freed memory is gone.** -/
theorem reachable_keeps_no_freed (runtime : Runtime) {σ : System} (h : (runs runtime (Careful runtime)).Reachable σ) :
    KeepsNoFreed runtime σ := by
  have hsound := reachable_sound h
  refine ⟨fun b hb => ?_, hsound.freedOnce, fun device bytes activeStream outcome s hperform hcareful he => ?_⟩
  · exact allocated_disjoint_freed (hsound.used b.dPtr (List.mem_map_of_mem hb))
  · obtain ⟨b, hlive, hptr⟩ := (perform_spec hperform).2 he
    have hs := perform_sound hperform hcareful hsound
    exact hptr ▸ allocated_disjoint_freed (hs.used b.dPtr (mem_pointers_of_live hlive))

/-- A block is allocated, given back, and freed. -/
theorem keeps_no_freed_after_all : ∃ outcome σ,
    performAll willing (fun σ request calls => decide (Careful willing σ request calls))
      [.deviceAllocate 0 512 0, .deviceFree 0 1, .freeAllCached] ⟨.success, 0⟩ initial = some (outcome, σ) ∧
    KeepsNoFreed willing σ := by
  obtain ⟨outcome, σ, hσ, hreachable⟩ := exists_careful
    [.deviceAllocate 0 512 0, .deviceFree 0 1, .freeAllCached] (by decide)
  exact ⟨outcome, σ, hσ, reachable_keeps_no_freed willing hreachable⟩

/-- The event of a cached block cannot be destroyed after its memory has been freed: the block stays cached, and it is
given to the user. -/
theorem not_forall_kept : ¬ ∀ (runtime : Runtime) (σ : System), (runs runtime fun _ _ _ => True).Reachable σ →
    ∀ b ∈ σ.allocator.liveBlocks ++ σ.allocator.cachedBlocks, b.dPtr ∉ freed σ.history := by
  intro h
  have hrun : (performAll (scripted fun n => if n = 10 then .other 1 else .success) (fun _ _ _ => true)
      [.deviceAllocate 0 512 0, .deviceFree 0 1, .freeAllCached, .deviceAllocate 0 512 0] ⟨.success, 0⟩ initial).map
        (fun x => (x.1, (x.2.allocator.liveBlocks ++ x.2.allocator.cachedBlocks).any
          fun b => decide (b.dPtr ∈ freed x.2.history))) = some (⟨.success, 1⟩, true) := by decide
  obtain ⟨⟨outcome, σ⟩, hσ, hany⟩ := Option.map_eq_some_iff.mp hrun
  have hreachable := reachable_mono (fun _ _ _ _ => trivial) (reachable_performAll hσ reachable_initial)
  obtain ⟨b, hb, hfreed⟩ := List.any_eq_true.mp (congrArg Prod.snd hany)
  exact h _ σ hreachable b hb (of_decide_eq_true hfreed)

/-! ## 6. The errors -/

/-- Success is reported of what has been done. -/
def Truthful (outcome : Outcome) (t : Session) : Request → Prop
  | .deviceAllocate _ _ _ => outcome.error = .success →
      (∃ b ∈ t.allocator.liveBlocks, b.dPtr = outcome.dPtr) ∧ outcome.dPtr ∈ obtained t.history
  | .freeAllCached => outcome.error = .success → t.allocator.cachedBlocks = []
  | _ => True

/-- A call without phantoms, and without an error that is overwritten. -/
def Candid (request : Request) (calls : History) : Prop :=
  Without RuntimeCall.phantom calls ∧ (request = .freeAllCached → Without RuntimeCall.overwritten calls)

theorem perform_fromRuntime (h : perform runtime request σ = some (outcome, t))
    (hphantom : Without RuntimeCall.phantom t.calls) (hσ : FromRuntime σ.start) : FromRuntime t :=
  ((perform_spec h).1.without phantom_pair hphantom).invariant (fun ht hstep ha => hstep.fromRuntime ht ha.2) hσ

theorem reachable_fromRuntime (h : (runs runtime fun _ => Candid).Reachable σ) : FromRuntime σ.start := by
  refine h.invariant (P := fun σ => FromRuntime σ.start) ?_ ?_
  · rintro σ ⟨binGrowth, minBin, maxBin, maxCachedBytes, rfl⟩
    exact fun _ hmem => absurd hmem List.not_mem_nil
  · rintro σ request σ' hσ ⟨outcome, s, hperform, hcandid, rfl⟩
    have hs : FromRuntime s := perform_fromRuntime hperform hcandid.1 hσ
    exact hs

/-- **In candid runs, errors are reported truthfully.** -/
theorem perform_truthful (runtime : Runtime) {σ : System} {request : Request} {outcome : Outcome} {t : Session}
    (hreachable : (runs runtime fun _ => Candid).Reachable σ) (h : perform runtime request σ = some (outcome, t))
    (hcandid : Candid request t.calls) : Truthful outcome t request := by
  have hreturned := (perform_spec h).2
  cases request with
  | deviceAllocate device bytes activeStream =>
    intro he
    obtain ⟨b, hlive, hptr⟩ := hreturned he
    have hfrom := perform_fromRuntime h hcandid.1 (reachable_fromRuntime hreachable)
    exact ⟨⟨b, hlive, hptr⟩, hptr ▸ hfrom b.dPtr (mem_pointers_of_live hlive)⟩
  | freeAllCached =>
    intro he
    refine (hreturned he).resolve_right ?_
    rintro ⟨c, c', calls, hcalls, hpair⟩
    have hwithout := hcandid.2 rfl
    rw [hcalls] at hwithout
    exact absurd (List.isChain_cons_cons.mp hwithout).1 (by simp [hpair])
  | _ => trivial

instance {calls : History} : Decidable (Candid request calls) := inferInstanceAs (Decidable (_ ∧ (_ → _)))

/-- A block is allocated. -/
theorem truthful_allocate : ∃ t, perform willing (.deviceAllocate 0 512 0) initial = some (⟨.success, 1⟩, t) ∧
    Truthful ⟨.success, 1⟩ t (.deviceAllocate 0 512 0) := by
  have hrun : (perform willing (.deviceAllocate 0 512 0) initial).map
      (fun x => (x.1, decide (Candid (.deviceAllocate 0 512 0) x.2.calls))) = some (⟨.success, 1⟩, true) := by
    decide
  obtain ⟨⟨outcome, t⟩, ht, hpair⟩ := Option.map_eq_some_iff.mp hrun
  obtain ⟨rfl, hcandid⟩ := Prod.mk.inj hpair
  exact ⟨t, ht, perform_truthful willing reachable_initial ht (of_decide_eq_true hcandid)⟩

/-- `cudaMalloc` fails with another error than `cudaErrorMemoryAllocation`, and `DeviceAllocate` succeeds with a null
pointer; `cudaFree` fails, and `FreeAllCached` succeeds with a cached block. -/
theorem not_forall_truthful :
    (¬ ∀ (runtime : Runtime) (σ : System) (device : ℤ) (bytes : BitVec 64) (activeStream : ℕ) (outcome : Outcome)
      (t : Session), (runs runtime fun _ _ _ => True).Reachable σ →
      perform runtime (.deviceAllocate device bytes activeStream) σ = some (outcome, t) →
      Truthful outcome t (.deviceAllocate device bytes activeStream)) ∧
    ¬ ∀ (runtime : Runtime) (σ : System) (outcome : Outcome) (t : Session),
      (runs runtime fun _ _ _ => True).Reachable σ → perform runtime .freeAllCached σ = some (outcome, t) →
      Truthful outcome t .freeAllCached := by
  constructor
  · intro h
    have hrun : (perform (scripted fun n => if n = 2 then .other 1 else .success) (.deviceAllocate 0 512 0) initial).map
        (fun x => (x.1, decide (x.1.dPtr ∈ obtained x.2.history))) = some (⟨.success, 0⟩, false) := by decide
    obtain ⟨⟨outcome, t⟩, ht, hpair⟩ := Option.map_eq_some_iff.mp hrun
    obtain ⟨rfl, hnot⟩ := Prod.mk.inj hpair
    exact of_decide_eq_false hnot (h _ _ _ _ _ _ t reachable_initial ht rfl).2
  · intro h
    have hrun : (performAll (scripted fun n => if n = 9 then .other 1 else .success) (fun _ _ _ => true)
        [.deviceAllocate 0 512 0, .deviceFree 0 1] ⟨.success, 0⟩ initial).bind
          (fun x => (perform (scripted fun n => if n = 9 then .other 1 else .success) .freeAllCached x.2).map
            fun y => (y.1, y.2.allocator.cachedBlocks.length)) = some (⟨.success, 0⟩, 1) := by decide
    obtain ⟨⟨_, σ⟩, hσ, hlast⟩ := Option.bind_eq_some_iff.mp hrun
    obtain ⟨⟨outcome, t⟩, ht, hpair⟩ := Option.map_eq_some_iff.mp hlast
    obtain ⟨rfl, hlength⟩ := Prod.mk.inj hpair
    have hreachable := reachable_mono (fun _ _ _ _ => trivial) (reachable_performAll hσ reachable_initial)
    have hempty : t.allocator.cachedBlocks = [] := h _ σ _ t hreachable ht rfl
    have hone : t.allocator.cachedBlocks.length = 1 := hlength
    rw [hempty] at hone
    exact absurd hone (by decide)

end Cccl.CachingAllocator
