/-
# What the allocator can do

Blocks move between `live_blocks`, `cached_blocks` and the runtime.  Every call is a row of the steps below, in which
the blocks, the counters and the calls of the runtime belong together (`Step`).

Three kinds of steps are not as they should be.  A block may become live although `cudaMalloc` has failed (`phantom`).
A block may stay cached although its memory is freed, because its event could not be destroyed (`halfFreed`).  And a
pointer may be freed that is not of a live block (`foreign`); then it is the user who must know what it is.

The counters are right after all steps (`Step.accounts`).  Without steps of these kinds, the pointers of the blocks are
different and in use, and nothing is freed twice (`Step.sound`).  Phantoms alone make blocks whose pointers the runtime
has never returned (`Step.fromRuntime`).
-/
import Cccl.CachingAllocator.Allocator

namespace Cccl.CachingAllocator

open CachingDeviceAllocator

/-! ## 1. Steps -/

/-- What is to be said of a step. -/
inductive Action
  | regular
  | phantom
  | halfFreed
  | foreign (dPtr : ℕ)
  deriving DecidableEq

section

inductive Step : Session → Action → Session → Prop
  /-- A call of the runtime that is not about memory, or fails to get it. -/
  | quiet {s : Session} {c : RuntimeCall} (hc : c.Quiet) : Step s .regular (s.log c)
  /-- A cached block becomes live. -/
  | reuse {s : Session} {l r : List BlockDescriptor} {b : BlockDescriptor} (stream : ℕ)
      (h : s.allocator.cachedBlocks = l ++ b :: r) :
      Step s .regular (s.update fun a =>
        (a.removeCached b.device b (l ++ r)).addLive b.device { b with associatedStream := stream })
  /-- A live block becomes cached. -/
  | recache {s : Session} {l r : List BlockDescriptor} {b : BlockDescriptor}
      (h : s.allocator.liveBlocks = l ++ b :: r) :
      Step s .regular (s.update fun a => (a.removeLive b.device b (l ++ r)).addCached b.device b)
  /-- A live block is given back to the runtime. -/
  | release {s : Session} {l r : List BlockDescriptor} {b : BlockDescriptor} (error : CudaError)
      (h : s.allocator.liveBlocks = l ++ b :: r) :
      Step s .regular ((s.update (·.removeLive b.device b (l ++ r))).log (.free b.dPtr error))
  /-- A cached block is freed. -/
  | drop {s : Session} {l r : List BlockDescriptor} {b : BlockDescriptor}
      (h : s.allocator.cachedBlocks = l ++ b :: r) :
      Step s .regular (((s.log (.free b.dPtr .success)).log (.eventDestroy b.readyEvent .success)).update
        (·.removeCached b.device b (l ++ r)))
  /-- The runtime does not free a cached block. -/
  | refused {s : Session} {l r : List BlockDescriptor} {b : BlockDescriptor} {error : CudaError}
      (h : s.allocator.cachedBlocks = l ++ b :: r) (he : error ≠ .success) :
      Step s .regular (s.log (.free b.dPtr error))
  /-- A cached block is freed and stays cached. -/
  | halfFreed {s : Session} {l r : List BlockDescriptor} {b : BlockDescriptor} {error : CudaError}
      (h : s.allocator.cachedBlocks = l ++ b :: r) (he : error ≠ .success) :
      Step s .halfFreed ((s.log (.free b.dPtr .success)).log (.eventDestroy b.readyEvent error))
  /-- A new block. -/
  | acquire {s : Session} {b : BlockDescriptor} (hfresh : b.dPtr ∉ allocated s.history) :
      Step s .regular (((s.log (.malloc b.dPtr b.bytes .success)).log (.eventCreate b.readyEvent .success)).update
        (·.addLive b.device b))
  /-- Memory without an event, which no block has. -/
  | leak {s : Session} {dPtr event : ℕ} {bytes : BitVec 64} {error : CudaError}
      (hfresh : dPtr ∉ allocated s.history) (he : error ≠ .success) :
      Step s .regular ((s.log (.malloc dPtr bytes .success)).log (.eventCreate event error))
  /-- A new block without memory. -/
  | phantom {s : Session} {b : BlockDescriptor} {dPtr : ℕ} {error : CudaError} (he : error ≠ .success) :
      Step s .phantom (((s.log (.malloc dPtr b.bytes error)).log (.eventCreate b.readyEvent .success)).update
        (·.addLive b.device b))
  /-- A pointer is freed that is not of a live block. -/
  | foreign {s : Session} (dPtr : ℕ) (error : CudaError) : Step s (.foreign dPtr) (s.log (.free dPtr error))
  /-- Another limit. -/
  | limit {s : Session} (maxCachedBytes : BitVec 64) :
      Step s .regular (s.update fun a => { a with maxCachedBytes := maxCachedBytes })

end

/-- A row of steps that are all `ok`. -/
def Leads (ok : Session → Action → Prop) : Session → Session → Prop :=
  Relation.ReflTransGen fun s s' => ∃ a, Step s a s' ∧ ok s a

variable {s s' : Session} {a : Action} {A : CachingDeviceAllocator} {b : BlockDescriptor} {l r : List BlockDescriptor}
  {ok ok' : Session → Action → Prop}

theorem Leads.step {t : Session} (h : Leads ok s t) (hstep : Step t a s') (ha : ok t a) : Leads ok s s' :=
  h.tail ⟨a, hstep, ha⟩

/-- **The rule for rows of steps.** -/
theorem Leads.invariant {P : Session → Prop} (hstep : ∀ {t a t'}, P t → Step t a t' → ok t a → P t')
    (h : Leads ok s s') (hs : P s) : P s' := by
  induction h with
  | refl => exact hs
  | tail _ hlast ih =>
    obtain ⟨a, ha, hok⟩ := hlast
    exact hstep ih ha hok

theorem insertBlock_perm (less : BlockDescriptor → BlockDescriptor → Bool) (b : BlockDescriptor)
    (l : List BlockDescriptor) : (insertBlock less b l).Perm (b :: l) := by
  induction l with
  | nil => exact List.Perm.refl _
  | cons x l ih =>
    unfold insertBlock
    split
    · exact List.Perm.refl _
    · exact (ih.cons x).trans (List.Perm.swap b x l)

/-! ## 2. The counters -/

/-- The sizes of the blocks of a device, as a `size_t`. -/
def sizes (device : ℤ) (l : List BlockDescriptor) : BitVec 64 :=
  ((l.filter (·.device = device)).map (·.bytes)).sum

/-- The counters are the sizes of the blocks. -/
structure Accounts (A : CachingDeviceAllocator) : Prop where
  free (device : ℤ) : (A.cachedBytes device).free = sizes device A.cachedBlocks
  live (device : ℤ) : (A.cachedBytes device).live = sizes device A.liveBlocks

theorem sizes_perm {device : ℤ} {l₁ l₂ : List BlockDescriptor} (h : l₁.Perm l₂) :
    sizes device l₁ = sizes device l₂ := ((h.filter _).map _).sum_eq

theorem sizes_cons (device : ℤ) (b : BlockDescriptor) (l : List BlockDescriptor) :
    sizes device (b :: l) = (if b.device = device then b.bytes else 0) + sizes device l := by
  unfold sizes
  by_cases hb : b.device = device
  · rw [List.filter_cons_of_pos (by exact decide_eq_true hb), List.map_cons, List.sum_cons, if_pos hb]
  · rw [List.filter_cons_of_neg (by exact Bool.eq_false_iff.mp (decide_eq_false hb)), if_neg hb, zero_add]

theorem sizes_insert {less : BlockDescriptor → BlockDescriptor → Bool} {device : ℤ} :
    sizes device (insertBlock less b l) = (if b.device = device then b.bytes else 0) + sizes device l :=
  (sizes_perm (insertBlock_perm less b l)).trans (sizes_cons device b l)

theorem sizes_middle {device : ℤ} :
    sizes device (l ++ b :: r) = (if b.device = device then b.bytes else 0) + sizes device (l ++ r) :=
  (sizes_perm List.perm_middle).trans (sizes_cons device b (l ++ r))

theorem Accounts.addLive (h : Accounts A) : Accounts (A.addLive b.device b) := by
  refine ⟨fun device => ?_, fun device => ?_⟩
  all_goals
    have hfree := h.free device
    have hlive := h.live device
    by_cases hdevice : device = b.device
  · subst hdevice
    simpa [CachingDeviceAllocator.addLive] using hfree
  · simpa [CachingDeviceAllocator.addLive, hdevice] using hfree
  · subst hdevice
    simp only [CachingDeviceAllocator.addLive, Function.update_self, sizes_insert, if_true, hlive]
    exact add_comm _ _
  · simp only [CachingDeviceAllocator.addLive, Function.update_of_ne hdevice, sizes_insert, if_neg (Ne.symm hdevice),
      hlive, zero_add]

theorem Accounts.addCached (h : Accounts A) : Accounts (A.addCached b.device b) := by
  refine ⟨fun device => ?_, fun device => ?_⟩
  all_goals
    have hfree := h.free device
    have hlive := h.live device
    by_cases hdevice : device = b.device
  · subst hdevice
    simp only [CachingDeviceAllocator.addCached, Function.update_self, sizes_insert, if_true, hfree]
    exact add_comm _ _
  · simp only [CachingDeviceAllocator.addCached, Function.update_of_ne hdevice, sizes_insert,
      if_neg (Ne.symm hdevice), hfree, zero_add]
  · subst hdevice
    simpa [CachingDeviceAllocator.addCached] using hlive
  · simpa [CachingDeviceAllocator.addCached, hdevice] using hlive

theorem Accounts.removeLive (h : Accounts A) (hlive : A.liveBlocks = l ++ b :: r) :
    Accounts (A.removeLive b.device b (l ++ r)) := by
  refine ⟨fun device => ?_, fun device => ?_⟩
  all_goals
    have hfree := h.free device
    have hcount := h.live device
    rw [hlive, sizes_middle] at hcount
    by_cases hdevice : device = b.device
  · subst hdevice
    simpa [CachingDeviceAllocator.removeLive] using hfree
  · simpa [CachingDeviceAllocator.removeLive, hdevice] using hfree
  · subst hdevice
    rw [if_pos rfl] at hcount
    simp only [CachingDeviceAllocator.removeLive, Function.update_self, hcount]
    exact add_sub_cancel_left _ _
  · rw [if_neg (Ne.symm hdevice), zero_add] at hcount
    simp only [CachingDeviceAllocator.removeLive, Function.update_of_ne hdevice, hcount]

theorem Accounts.removeCached (h : Accounts A) (hcached : A.cachedBlocks = l ++ b :: r) :
    Accounts (A.removeCached b.device b (l ++ r)) := by
  refine ⟨fun device => ?_, fun device => ?_⟩
  all_goals
    have hcount := h.free device
    have hlive := h.live device
    rw [hcached, sizes_middle] at hcount
    by_cases hdevice : device = b.device
  · subst hdevice
    rw [if_pos rfl] at hcount
    simp only [CachingDeviceAllocator.removeCached, Function.update_self, hcount]
    exact add_sub_cancel_left _ _
  · rw [if_neg (Ne.symm hdevice), zero_add] at hcount
    simp only [CachingDeviceAllocator.removeCached, Function.update_of_ne hdevice, hcount]
  · subst hdevice
    simpa [CachingDeviceAllocator.removeCached] using hlive
  · simpa [CachingDeviceAllocator.removeCached, hdevice] using hlive

/-- **The counters stay right.** -/
theorem Step.accounts (h : Step s a s') (hs : Accounts s.allocator) : Accounts s'.allocator := by
  cases h with
  | @reuse l r b stream hcached => exact (hs.removeCached hcached).addLive (b := { b with associatedStream := stream })
  | recache hlive => exact (hs.removeLive hlive).addCached
  | release _ hlive => exact hs.removeLive hlive
  | drop hcached => exact hs.removeCached hcached
  | acquire _ => exact hs.addLive
  | phantom _ => exact hs.addLive
  | limit _ => exact ⟨hs.free, hs.live⟩
  | _ => exact hs

/-! ## 3. The pointers -/

/-- The pointers of all blocks. -/
def pointers (A : CachingDeviceAllocator) : List ℕ := (A.liveBlocks ++ A.cachedBlocks).map (·.dPtr)

theorem pointers_addLive (device : ℤ) : (pointers (A.addLive device b)).Perm (b.dPtr :: pointers A) :=
  ((insertBlock_perm ptrCompare b A.liveBlocks).append_right A.cachedBlocks).map _

theorem pointers_addCached (device : ℤ) : (pointers (A.addCached device b)).Perm (b.dPtr :: pointers A) :=
  (((insertBlock_perm sizeCompare b A.cachedBlocks).append_left A.liveBlocks).trans List.perm_middle).map _

theorem pointers_removeLive {device : ℤ} (hlive : A.liveBlocks = l ++ b :: r) :
    (pointers A).Perm (b.dPtr :: pointers (A.removeLive device b (l ++ r))) := by
  unfold pointers
  rw [hlive]
  exact (List.perm_middle.append_right A.cachedBlocks).map (·.dPtr)

theorem pointers_removeCached {device : ℤ} (hcached : A.cachedBlocks = l ++ b :: r) :
    (pointers A).Perm (b.dPtr :: pointers (A.removeCached device b (l ++ r))) := by
  unfold pointers
  rw [hcached]
  exact ((List.perm_middle.append_left A.liveBlocks).trans List.perm_middle).map (·.dPtr)

/-- A cached block becomes live, or a live one cached: the pointers are the same. -/
theorem pointers_reuse {device : ℤ} {stream : ℕ} (hcached : A.cachedBlocks = l ++ b :: r) :
    (pointers A).Perm (pointers ((A.removeCached device b (l ++ r)).addLive device
      { b with associatedStream := stream })) :=
  (pointers_removeCached hcached).trans (pointers_addLive (b := { b with associatedStream := stream }) device).symm

theorem pointers_recache {device : ℤ} (hlive : A.liveBlocks = l ++ b :: r) :
    (pointers A).Perm (pointers ((A.removeLive device b (l ++ r)).addCached device b)) :=
  (pointers_removeLive hlive).trans (pointers_addCached device).symm

theorem mem_pointers_of_cached (hcached : A.cachedBlocks = l ++ b :: r) : b.dPtr ∈ pointers A :=
  (@pointers_removeCached _ _ _ _ b.device hcached).mem_iff.mpr List.mem_cons_self

theorem mem_pointers_of_live (hlive : b ∈ A.liveBlocks) : b.dPtr ∈ pointers A :=
  List.mem_map_of_mem (List.mem_append_left _ hlive)

/-- The blocks have memory of their own, and no memory is freed twice. -/
structure Sound (s : Session) : Prop where
  nodup : (pointers s.allocator).Nodup
  used : ∀ dPtr ∈ pointers s.allocator, dPtr ∈ allocated s.history
  freedOnce : FreedOnce s.history

/-- The steps that keep this. -/
def Permitted (s : Session) : Action → Prop
  | .regular => True
  | .phantom => False
  | .halfFreed => False
  | .foreign dPtr => dPtr ∉ pointers s.allocator ∧ dPtr ∉ freed s.history

theorem Sound.quiet {c : RuntimeCall} (h : Sound s) (hc : c.Quiet) : Sound (s.log c) := by
  refine ⟨h.nodup, fun dPtr hmem => ?_, (freedOnce_quiet hc).mpr h.freedOnce⟩
  exact (allocated_quiet (h := s.history) hc).symm ▸ h.used dPtr hmem

theorem Sound.of_perm {f : CachingDeviceAllocator → CachingDeviceAllocator} (h : Sound s)
    (hperm : (pointers s.allocator).Perm (pointers (f s.allocator))) : Sound (s.update f) :=
  ⟨hperm.nodup_iff.mp h.nodup, fun dPtr hmem => h.used dPtr (hperm.mem_iff.mpr hmem), h.freedOnce⟩

/-- A `cudaFree` that fails changes nothing. -/
theorem Sound.refused {dPtr : ℕ} {error : CudaError} (h : Sound s) (hunfreed : dPtr ∉ freed s.history)
    (he : error ≠ .success) : Sound (s.log (.free dPtr error)) :=
  ⟨h.nodup, fun p hmem => (allocated_free_of_ne (h := s.history) he).symm ▸ h.used p hmem, hunfreed, h.freedOnce⟩

/-- **A pointer that leaves the blocks may be freed.** -/
theorem Sound.free {dPtr : ℕ} {f : CachingDeviceAllocator → CachingDeviceAllocator} {error : CudaError} (h : Sound s)
    (hperm : (pointers s.allocator).Perm (dPtr :: pointers (f s.allocator))) :
    Sound ((s.update f).log (.free dPtr error)) := by
  have hnodup := hperm.nodup_iff.mp h.nodup
  have hmem : ∀ p ∈ pointers (f s.allocator), p ∈ allocated s.history := fun p hp =>
    h.used p (hperm.mem_iff.mpr (List.mem_cons_of_mem _ hp))
  have hused := h.used dPtr (hperm.mem_iff.mpr List.mem_cons_self)
  refine ⟨hnodup.of_cons, fun p hp => ?_, allocated_disjoint_freed hused, h.freedOnce⟩
  cases error with
  | success =>
    refine Finset.mem_erase.mpr ⟨?_, hmem p hp⟩
    rintro rfl
    exact (List.nodup_cons.mp hnodup).1 hp
  | _ => exact hmem p hp

/-- **The blocks stay sound.** -/
theorem Step.sound (h : Step s a s') (hs : Sound s) (ha : Permitted s a) : Sound s' := by
  cases h with
  | quiet hc => exact hs.quiet hc
  | reuse stream hcached => exact hs.of_perm (pointers_reuse hcached)
  | recache hlive => exact hs.of_perm (pointers_recache hlive)
  | release error hlive => exact hs.free (pointers_removeLive hlive)
  | @drop l r b hcached =>
    have hfree : Sound ((s.update (·.removeCached b.device b (l ++ r))).log (.free b.dPtr .success)) :=
      hs.free (pointers_removeCached hcached)
    exact hfree.quiet (c := .eventDestroy b.readyEvent .success) trivial
  | refused hcached he =>
    exact hs.refused (allocated_disjoint_freed (hs.used _ (mem_pointers_of_cached hcached))) he
  | halfFreed _ _ => exact ha.elim
  | @acquire b hfresh =>
    have hperm := pointers_addLive (A := s.allocator) (b := b) b.device
    have hnew : b.dPtr ∉ pointers s.allocator := fun hmem => hfresh (hs.used _ hmem)
    refine ⟨hperm.nodup_iff.mpr (List.nodup_cons.mpr ⟨hnew, hs.nodup⟩), fun p hmem => ?_, hs.freedOnce⟩
    rcases List.mem_cons.mp (hperm.mem_iff.mp hmem) with rfl | hold
    · exact Finset.mem_insert_self _ _
    · exact Finset.mem_insert_of_mem (hs.used p hold)
  | leak hfresh he => exact ⟨hs.nodup, fun p hmem => Finset.mem_insert_of_mem (hs.used p hmem), hs.freedOnce⟩
  | phantom _ => exact ha.elim
  | foreign dPtr error =>
    refine ⟨hs.nodup, fun p hmem => ?_, ha.2, hs.freedOnce⟩
    cases error with
    | success =>
      refine Finset.mem_erase.mpr ⟨?_, hs.used p hmem⟩
      rintro rfl
      exact ha.1 hmem
    | _ => exact hs.used p hmem
  | limit _ => exact ⟨hs.nodup, hs.used, hs.freedOnce⟩

/-- All blocks are from the runtime. -/
def FromRuntime (s : Session) : Prop := ∀ dPtr ∈ pointers s.allocator, dPtr ∈ obtained s.history

theorem FromRuntime.log {c : RuntimeCall} (h : FromRuntime s) : FromRuntime (s.log c) :=
  fun dPtr hmem => obtained_subset (h dPtr hmem)

theorem FromRuntime.of_subset {f : CachingDeviceAllocator → CachingDeviceAllocator} (h : FromRuntime s)
    (hsubset : pointers (f s.allocator) ⊆ pointers s.allocator) : FromRuntime (s.update f) :=
  fun dPtr hmem => h dPtr (hsubset hmem)

/-- **Only a phantom is not from the runtime.** -/
theorem Step.fromRuntime (h : Step s a s') (hs : FromRuntime s) (ha : a ≠ .phantom) : FromRuntime s' := by
  cases h with
  | quiet hc => exact hs.log
  | reuse stream hcached => exact hs.of_subset (pointers_reuse hcached).symm.subset
  | recache hlive => exact hs.of_subset (pointers_recache hlive).symm.subset
  | release error hlive =>
    exact (hs.of_subset fun p hmem => (pointers_removeLive hlive).mem_iff.mpr (List.mem_cons_of_mem _ hmem)).log
  | drop hcached =>
    exact hs.log.log.of_subset fun p hmem => (pointers_removeCached hcached).mem_iff.mpr (List.mem_cons_of_mem _ hmem)
  | refused _ _ => exact hs.log
  | halfFreed _ _ => exact hs.log.log
  | @acquire b hfresh =>
    intro p hmem
    rcases List.mem_cons.mp ((pointers_addLive b.device).mem_iff.mp hmem) with rfl | hold
    · exact Finset.mem_insert_self _ _
    · exact Finset.mem_insert_of_mem (hs p hold)
  | leak _ _ => exact hs.log.log
  | phantom _ => exact absurd rfl ha
  | foreign _ _ => exact hs.log
  | limit _ => exact hs

end Cccl.CachingAllocator
