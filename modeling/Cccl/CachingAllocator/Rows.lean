/-
# Every call is a row of steps

The functions of the allocator, one after the other, as rows of the steps of `Step`.  A piece of a function that only
makes quiet calls of the runtime keeps whatever such calls keep (`Calm`), and the rest adds steps to the row.

`DeviceAllocate` and `FreeAllCached` have no foreign steps.  `DeviceFree` has one if the pointer is not live on the
device, and otherwise none of the three kinds (`FreeStep`).
-/
import Cccl.CachingAllocator.Actions

namespace Cccl.CachingAllocator

open CachingDeviceAllocator

/-- What quiet calls of the runtime keep. -/
def Calm (P : Session → Prop) : Prop := ∀ s c, RuntimeCall.Quiet c → P s → P (s.log c)

variable {runtime : Runtime} {P : Session → Prop} {s s₀ : Session} {ok : Session → Action → Prop}
  {key : BlockDescriptor} {A : CachingDeviceAllocator}

theorem Calm.and {Q : Session → Prop} (hP : Calm P) (hQ : Calm Q) : Calm fun s => P s ∧ Q s :=
  fun s c hc h => ⟨hP s c hc h.1, hQ s c hc h.2⟩

theorem calm_allocator (Q : CachingDeviceAllocator → Prop) : Calm fun s => Q s.allocator := fun _ _ _ h => h

theorem calm_freed (F : Finset ℕ) : Calm fun s => freed s.history = F :=
  fun s _ hc h => (freed_quiet (h := s.history) hc).trans h

theorem Leads.calm (hok : ∀ s, ok s .regular) : Calm (Leads ok s₀) :=
  fun s _ hc h => h.step (.quiet hc) (hok s)

/-! ## 1. Calls of the runtime -/

theorem invoke_spec {c : CudaError → RuntimeCall} {r : Exit → Session → Prop} :
    Program.Spec P (invoke runtime c) (fun error t => ∃ s, P s ∧ t = s.log (c error)) r :=
  fun s hs => ⟨s, hs, rfl⟩

theorem invoke_calm (hP : Calm P) {c : CudaError → RuntimeCall} (hc : ∀ error, (c error).Quiet)
    {r : Exit → Session → Prop} : Program.Spec P (invoke runtime c) (fun _ => P) r :=
  fun s hs => hP s _ (hc _) hs

theorem check_spec {error : CudaError} :
    Program.Spec P (check error) (fun _ s => error = .success ∧ P s) (fun _ => P) := by
  unfold check
  split
  · rename_i he
    exact Program.Spec.pure fun s hs => ⟨he, hs⟩
  · exact Program.Spec.exit fun s hs => hs

theorem check_calm {error : CudaError} : Program.Spec P (check error) (fun _ => P) (fun _ => P) :=
  check_spec.weaken (fun _ h => h) (fun _ _ h => h.2) fun _ _ h => h

theorem cudaGetDevice_spec {r : Exit → Session → Prop} :
    Program.Spec P (cudaGetDevice runtime)
      (fun res t => ∃ s, P s ∧ res.2 = runtime.device s.history ∧ t = s.log (.getDevice res.2 res.1)) r := by
  refine (Program.Spec.state (q := fun s' s => s = s' ∧ P s) fun _ h => ⟨rfl, h⟩).bind fun s' => ?_
  refine invoke_spec.bind fun error => Program.Spec.pure ?_
  rintro t ⟨s, ⟨rfl, hs⟩, rfl⟩
  exact ⟨s, hs, rfl, rfl⟩

theorem cudaGetDevice_calm (hP : Calm P) {r : Exit → Session → Prop} :
    Program.Spec P (cudaGetDevice runtime) (fun _ => P) r := by
  refine cudaGetDevice_spec.weaken (fun _ h => h) ?_ fun _ _ h => h
  rintro res t ⟨s, hs, -, rfl⟩
  exact hP s _ trivial hs

theorem cudaSetDevice_calm (hP : Calm P) {device : ℤ} {r : Exit → Session → Prop} :
    Program.Spec P (cudaSetDevice runtime device) (fun _ => P) r :=
  invoke_calm (c := .setDevice device) hP fun _ => trivial

theorem cudaEventQuery_calm (hP : Calm P) {event : ℕ} {r : Exit → Session → Prop} :
    Program.Spec P (cudaEventQuery runtime event) (fun _ => P) r :=
  invoke_calm (c := .eventQuery event) hP fun _ => trivial

theorem cudaEventRecord_calm (hP : Calm P) {event stream : ℕ} {r : Exit → Session → Prop} :
    Program.Spec P (cudaEventRecord runtime event stream) (fun _ => P) r :=
  invoke_calm (c := .eventRecord event stream) hP fun _ => trivial

theorem cudaEventDestroy_calm (hP : Calm P) {event : ℕ} {r : Exit → Session → Prop} :
    Program.Spec P (cudaEventDestroy runtime event) (fun _ => P) r :=
  invoke_calm (c := .eventDestroy event) hP fun _ => trivial

theorem cudaEventCreate_spec {r : Exit → Session → Prop} :
    Program.Spec P (cudaEventCreate runtime)
      (fun res t => ∃ s, P s ∧ t = s.log (.eventCreate res.2 res.1)) r :=
  (Program.Spec.state (q := fun _ => P) fun _ h => h).bind fun _ =>
    invoke_spec.bind fun _ => Program.Spec.pure fun _ h => h

theorem cudaMalloc_spec {old : ℕ} {bytes : BitVec 64} {r : Exit → Session → Prop} :
    Program.Spec P (cudaMalloc runtime old bytes)
      (fun res t => ∃ s dPtr, P s ∧ t = s.log (.malloc dPtr bytes res.1) ∧ dPtr ∉ allocated s.history ∧
        res.2 = if res.1 = .success then dPtr else old) r := by
  refine (Program.Spec.state (q := fun s' s => s = s' ∧ P s) fun _ h => ⟨rfl, h⟩).bind fun s' => ?_
  refine invoke_spec.bind fun error => Program.Spec.pure ?_
  rintro t ⟨s, ⟨rfl, hs⟩, rfl⟩
  exact ⟨s, _, hs, rfl, (runtime.address s.history).2.2, rfl⟩

/-! ## 2. Devices -/

theorem resolveDevice_calm (hP : Calm P) {device : ℤ} :
    Program.Spec P (resolveDevice runtime device) (fun _ => P) (fun _ => P) := by
  unfold resolveDevice
  split
  · exact (cudaGetDevice_calm hP).bind fun res => check_calm.bind fun _ => Program.Spec.pure fun _ h => h
  · exact Program.Spec.pure fun _ h => h

theorem enterDevice_calm (hP : Calm P) {device entrypointDevice : ℤ} :
    Program.Spec P (enterDevice runtime device entrypointDevice) (fun _ => P) (fun _ => P) := by
  unfold enterDevice
  split
  · exact (cudaGetDevice_calm hP).bind fun res => check_calm.bind fun _ =>
      (cudaSetDevice_calm hP).bind fun _ => check_calm.bind fun _ => Program.Spec.pure fun _ h => h
  · exact Program.Spec.pure fun _ h => h

theorem leaveDevice_calm (hP : Calm P) {device entrypointDevice : ℤ} :
    Program.Spec P (leaveDevice runtime device entrypointDevice) (fun _ => P) (fun _ => P) := by
  unfold leaveDevice
  split
  · exact (cudaSetDevice_calm hP).bind fun _ => check_calm
  · exact Program.Spec.pure fun _ h => h

/-- The device of a call: the one that is given, or the current one. -/
def deviceOf (runtime : Runtime) (h : History) (device : ℤ) : ℤ :=
  if device = invalidDeviceOrdinal then runtime.device h else device

theorem resolveDevice_spec (hP : Calm P) (hs : P s) {device : ℤ} :
    Program.Spec (· = s) (resolveDevice runtime device)
      (fun res t => res.1 = deviceOf runtime s.history device ∧ P t) (fun _ => P) := by
  unfold resolveDevice deviceOf
  split
  · refine cudaGetDevice_spec.bind fun res => ?_
    refine Program.Spec.bind (q := fun _ t => res.2 = runtime.device s.history ∧ P t) ?_ fun _ =>
      Program.Spec.pure fun _ h => h
    refine check_calm.weaken ?_ (fun _ _ h => h) fun _ _ h => h.2
    rintro t ⟨t', rfl, hdevice, rfl⟩
    exact ⟨hdevice, hP _ _ trivial hs⟩
  · refine Program.Spec.pure ?_
    rintro t rfl
    exact ⟨rfl, hs⟩

/-! ## 3. `DeviceAllocate` -/

theorem searchCached_spec (hP : Calm P) (blocks : List BlockDescriptor) {r : Exit → Session → Prop} :
    Program.Spec P (searchCached runtime key blocks) (fun found t => P t ∧ ∀ b others, found = some (b, others) →
      ∃ l r, blocks = l ++ b :: r ∧ others = l ++ r ∧ b.device = key.device ∧ b.bin = key.bin) r := by
  induction blocks with
  | nil => exact Program.Spec.pure fun t h => ⟨h, fun b others hfound => absurd hfound (by simp)⟩
  | cons x blocks ih =>
    have hhead : x.device = key.device ∧ x.bin = key.bin → ∀ t, P t → P t ∧ ∀ b others,
        some (x, blocks) = some (b, others) →
          ∃ l r, x :: blocks = l ++ b :: r ∧ others = l ++ r ∧ b.device = key.device ∧ b.bin = key.bin := by
      rintro hmatch t ht
      refine ⟨ht, fun b others hfound => ?_⟩
      cases hfound
      exact ⟨[], blocks, rfl, rfl, hmatch⟩
    unfold searchCached
    split
    · rename_i hmatch
      split
      · exact Program.Spec.pure (hhead hmatch)
      · refine (cudaEventQuery_calm hP).bind fun eventStatus => ?_
        split
        · exact Program.Spec.pure (hhead hmatch)
        · refine ih.bind fun found => Program.Spec.pure ?_
          rintro t ⟨ht, hfound⟩
          refine ⟨ht, fun b others hsome => ?_⟩
          obtain ⟨⟨b', others'⟩, hsearch, heq⟩ := Option.map_eq_some_iff.mp hsome
          obtain ⟨l, r, rfl, rfl, hmatch'⟩ := hfound b' others' hsearch
          obtain ⟨rfl, rfl⟩ := Prod.mk.inj heq
          exact ⟨x :: l, r, rfl, rfl, hmatch'⟩
    · exact Program.Spec.pure fun t h => ⟨h, fun b others hfound => absurd hfound (by simp)⟩

/-- The pointer is that of a live block. -/
def IsLive (dPtr : ℕ) (s : Session) : Prop := ∃ b ∈ s.allocator.liveBlocks, b.dPtr = dPtr

theorem isLive_addLive {device : ℤ} {b : BlockDescriptor} {t : Session} {f : CachingDeviceAllocator → CachingDeviceAllocator} :
    IsLive b.dPtr (t.update fun a => (f a).addLive device b) :=
  ⟨b, (insertBlock_perm _ _ _).mem_iff.mpr List.mem_cons_self, rfl⟩

theorem reuseBlock_spec (hok : ∀ s, ok s .regular) {r : Exit → Session → Prop} :
    Program.Spec (Leads ok s₀) (reuseBlock runtime key)
      (fun found t => Leads ok s₀ t ∧ ∀ b : BlockDescriptor, found = some b → IsLive b.dPtr t) r := by
  refine (Program.Spec.state (q := fun s' s => s.allocator = s'.allocator ∧ Leads ok s₀ s) fun _ h => ⟨rfl, h⟩).bind
    fun s' => ?_
  refine (searchCached_spec ((calm_allocator (· = s'.allocator)).and (Leads.calm hok)) _).bind fun found => ?_
  rcases found with _ | ⟨b, others⟩
  · exact Program.Spec.pure fun t h => ⟨h.1.2, fun b hb => absurd hb (by simp)⟩
  · refine (Program.Spec.change (q := fun _ t => Leads ok s₀ t ∧
      IsLive b.dPtr t) ?_).bind fun _ => Program.Spec.pure ?_
    · rintro t ⟨⟨hallocator, hleads⟩, hfound⟩
      obtain ⟨l, r, hblocks, rfl, hdevice, -⟩ := hfound b others rfl
      have hcached : t.allocator.cachedBlocks =
          (s'.allocator.cachedBlocks.takeWhile (sizeCompare · key) ++ l) ++ b :: r := by
        rw [List.append_assoc, ← hblocks, List.takeWhile_append_dropWhile, hallocator]
      rw [← hdevice, ← List.append_assoc]
      exact ⟨hleads.step (.reuse key.associatedStream hcached) (hok t),
        isLive_addLive (b := { b with associatedStream := key.associatedStream })⟩
    · rintro t ⟨hleads, hlive⟩
      refine ⟨hleads, fun b' hb' => ?_⟩
      cases hb'
      exact hlive

/-- **The loop over the blocks of a device.** -/
theorem freeDeviceBlocks_spec (hok : ∀ s, ok s .regular) (hhalf : ∀ s, ok s .halfFreed) {device : ℤ}
    {before : List BlockDescriptor} (blocks : List BlockDescriptor) {r : Exit → Session → Prop} :
    Program.Spec (fun t => Leads ok s₀ t ∧ t.allocator.cachedBlocks = before ++ blocks)
      (freeDeviceBlocks runtime device before blocks) (fun _ => Leads ok s₀) r := by
  induction blocks with
  | nil => exact Program.Spec.pure fun t h => h.1
  | cons b blocks ih =>
    unfold freeDeviceBlocks
    split
    swap
    · exact Program.Spec.pure fun t h => h.1
    rename_i hdevice
    refine (invoke_spec (c := .free b.dPtr)).bind fun error => ?_
    by_cases he : error = .success
    swap
    · rw [if_pos he]
      refine Program.Spec.pure ?_
      rintro t ⟨t', ⟨hleads, hcached⟩, rfl⟩
      exact hleads.step (.refused hcached he) (hok t')
    rw [if_neg (not_not.mpr he), he]
    refine (invoke_spec (c := .eventDestroy b.readyEvent)).bind fun error => ?_
    by_cases he : error = .success
    swap
    · rw [if_pos he]
      refine Program.Spec.pure ?_
      rintro t ⟨-, ⟨t', ⟨hleads, hcached⟩, rfl⟩, rfl⟩
      exact hleads.step (.halfFreed hcached he) (hhalf t')
    rw [if_neg (not_not.mpr he), he]
    refine (Program.Spec.change ?_).bind fun _ => ih
    rintro t ⟨-, ⟨t', ⟨hleads, hcached⟩, rfl⟩, rfl⟩
    rw [← hdevice]
    exact ⟨hleads.step (.drop hcached) (hok t'), rfl⟩

/-- `cudaMalloc` has just returned the pointer, or an error that is not looked at. -/
def Obtaining (ok : Session → Action → Prop) (s₀ : Session) (bytes : BitVec 64) (dPtr : ℕ) (t : Session) : Prop :=
  ∃ s p error, Leads ok s₀ s ∧ t = s.log (.malloc p bytes error) ∧ p ∉ allocated s.history ∧
    (error = .success → dPtr = p)

theorem allocateMemory_spec (hok : ∀ s, ok s .regular) (hhalf : ∀ s, ok s .halfFreed) :
    Program.Spec (Leads ok s₀) (allocateMemory runtime key) (Obtaining ok s₀ key.bytes)
      (fun _ => Leads ok s₀) := by
  refine cudaMalloc_spec.bind fun res => ?_
  obtain ⟨error, dPtr⟩ := res
  dsimp only
  by_cases hmemory : error = .memoryAllocation
  swap
  · rw [if_neg hmemory]
    refine Program.Spec.pure ?_
    rintro t ⟨s, p, hleads, rfl, hfresh, hptr⟩
    exact ⟨s, p, error, hleads, rfl, hfresh, fun he => hptr.trans (if_pos he)⟩
  rw [if_pos hmemory, hmemory]
  -- all cached blocks of the device are freed first
  refine (Program.Spec.state (q := fun s' t => s'.allocator = t.allocator ∧ Leads ok s₀ t) ?_).bind fun s' => ?_
  · rintro t ⟨s, p, hleads, rfl, -, -⟩
    exact ⟨rfl, Leads.calm hok s _ (show CudaError.memoryAllocation ≠ .success by decide) hleads⟩
  refine ((@freeDeviceBlocks_spec _ s₀ _ hok hhalf _ _ _ _).pre ?_).bind fun error => ?_
  · rintro t ⟨hallocator, hleads⟩
    exact ⟨hleads, by rw [List.takeWhile_append_dropWhile, hallocator]⟩
  refine check_calm.bind fun _ => cudaMalloc_spec.bind fun res => ?_
  obtain ⟨error, dPtr⟩ := res
  cases error with
  | success =>
    refine Program.Spec.pure ?_
    rintro t ⟨s, p, hleads, rfl, hfresh, hptr⟩
    exact ⟨s, p, .success, hleads, rfl, hfresh, fun _ => hptr⟩
  | _ =>
    refine Program.Spec.exit ?_
    rintro t ⟨s, p, hleads, rfl, -, -⟩
    exact Leads.calm hok s _ (by exact CudaError.noConfusion) hleads

theorem allocateBlock_spec (hok : ∀ s, ok s .regular) (hhalf : ∀ s, ok s .halfFreed) (hphantom : ∀ s, ok s .phantom) :
    Program.Spec (Leads ok s₀) (allocateBlock runtime key) (fun dPtr t => Leads ok s₀ t ∧ IsLive dPtr t)
      (fun _ => Leads ok s₀) := by
  refine (allocateMemory_spec hok hhalf).bind fun dPtr => cudaEventCreate_spec.bind fun res => ?_
  obtain ⟨error, readyEvent⟩ := res
  refine Program.Spec.bind (q := fun _ t => error = .success ∧ ∃ t', Obtaining ok s₀ key.bytes dPtr t' ∧
    t = t'.log (.eventCreate readyEvent .success)) ?_ fun _ => ?_
  · cases error with
    | success =>
      refine Program.Spec.pure ?_
      rintro t ⟨t', hobtaining, rfl⟩
      exact ⟨rfl, t', hobtaining, rfl⟩
    | _ =>
      refine Program.Spec.exit ?_
      rintro t ⟨-, ⟨s, p, error, hleads, rfl, hfresh, -⟩, rfl⟩
      cases error with
      | success => exact hleads.step (.leak hfresh (by exact CudaError.noConfusion)) (hok s)
      | _ => exact Leads.calm hok _ _ trivial (Leads.calm hok s _ (by exact CudaError.noConfusion) hleads)
  · refine (Program.Spec.change (q := fun _ t => Leads ok s₀ t ∧ IsLive dPtr t) ?_).bind fun _ =>
      Program.Spec.pure fun t h => h
    rintro t ⟨-, -, ⟨s, p, error, hleads, rfl, hfresh, hptr⟩, rfl⟩
    refine ⟨?_, isLive_addLive (b := { key with dPtr := dPtr, readyEvent := readyEvent })⟩
    by_cases he : error = .success
    · subst he
      obtain rfl := hptr rfl
      exact hleads.step (.acquire (b := { key with dPtr := dPtr, readyEvent := readyEvent }) hfresh) (hok s)
    · exact hleads.step (.phantom (b := { key with dPtr := dPtr, readyEvent := readyEvent }) he) (hphantom s)

/-- **`DeviceAllocate` is a row of steps**, none of them foreign, and its result is a live block. -/
theorem deviceAllocate_spec (hok : ∀ s, ok s .regular) (hhalf : ∀ s, ok s .halfFreed) (hphantom : ∀ s, ok s .phantom)
    {device : ℤ} {bytes : BitVec 64} {activeStream : ℕ} :
    Program.Spec (Leads ok s₀) (deviceAllocate runtime device bytes activeStream)
      (fun dPtr t => Leads ok s₀ t ∧ IsLive dPtr t) (fun _ => Leads ok s₀) := by
  have hcalm : Calm (Leads ok s₀) := Leads.calm hok
  refine (resolveDevice_calm hcalm).bind fun res => ?_
  obtain ⟨device, entrypointDevice⟩ := res
  refine (Program.Spec.state (q := fun _ => Leads ok s₀) fun _ h => h).bind fun s' => ?_
  dsimp only
  split
  · exact Program.Spec.exit fun _ h => h
  rename_i bin bytes cacheable _
  refine Program.Spec.bind (q := fun found t => Leads ok s₀ t ∧ ∀ b : BlockDescriptor, found = some b → IsLive b.dPtr t) ?_
    fun found => ?_
  · unfold lookUp
    split
    · exact reuseBlock_spec hok
    · exact Program.Spec.pure fun t h => ⟨h, fun b hb => absurd hb (by simp)⟩
  cases found with
  | some block => exact Program.Spec.pure fun t h => ⟨h.1, h.2 block rfl⟩
  | none =>
    refine ((enterDevice_calm hcalm).weaken (fun _ h => h.1) (fun _ _ h => h) fun _ _ h => h).bind fun entry => ?_
    refine (allocateBlock_spec hok hhalf hphantom).bind fun dPtr => ?_
    have hboth : Calm fun t => Leads ok s₀ t ∧ IsLive dPtr t :=
      hcalm.and (calm_allocator fun a => ∃ b ∈ a.liveBlocks, b.dPtr = dPtr)
    exact ((leaveDevice_calm hboth).weaken (fun _ h => h) (fun _ _ h => h) fun _ _ h => h.1).bind fun _ =>
      Program.Spec.pure fun _ h => h

/-! ## 4. `DeviceFree` -/

theorem findLive_eq_some {device : ℤ} {dPtr : ℕ} {blocks others : List BlockDescriptor} {b : BlockDescriptor}
    (h : findLive device dPtr blocks = some (b, others)) :
    ∃ l r, blocks = l ++ b :: r ∧ others = l ++ r ∧ b.device = device ∧ b.dPtr = dPtr := by
  induction blocks generalizing others with
  | nil => exact absurd h (by simp [findLive])
  | cons x blocks ih =>
    rw [findLive] at h
    split at h
    · rename_i hmatch
      cases h
      exact ⟨[], blocks, rfl, rfl, hmatch⟩
    · obtain ⟨⟨b', others'⟩, hfind, heq⟩ := Option.map_eq_some_iff.mp h
      obtain ⟨rfl, rfl⟩ := Prod.mk.inj heq
      obtain ⟨l, r, rfl, rfl, hmatch⟩ := ih hfind
      exact ⟨x :: l, r, rfl, rfl, hmatch⟩

theorem findLive_eq_none {device : ℤ} {dPtr : ℕ} {blocks : List BlockDescriptor}
    (h : findLive device dPtr blocks = none) : ∀ b ∈ blocks, ¬ (b.device = device ∧ b.dPtr = dPtr) := by
  induction blocks with
  | nil => exact fun b hb => absurd hb List.not_mem_nil
  | cons x blocks ih =>
    rw [findLive] at h
    split at h
    · exact absurd h (by simp)
    · rename_i hmatch
      intro b hb
      rcases List.mem_cons.mp hb with rfl | hb
      · exact hmatch
      · exact ih (Option.map_eq_none_iff.mp h) b hb

/-- The steps of `DeviceFree`: a foreign one only if the pointer is not live on the device. -/
def FreeStep (s₀ : Session) (device : ℤ) (dPtr : ℕ) (t : Session) (a : Action) : Prop :=
  a = .regular ∨ a = .foreign dPtr ∧ t.allocator = s₀.allocator ∧ freed t.history = freed s₀.history ∧
    ∀ b ∈ s₀.allocator.liveBlocks, ¬ (b.device = device ∧ b.dPtr = dPtr)

theorem recordReady_calm (hP : Calm P) {device entrypointDevice : ℤ} {block : BlockDescriptor} :
    Program.Spec P (recordReady runtime device entrypointDevice block) (fun _ => P) (fun _ => P) := by
  refine (cudaEventRecord_calm hP).bind fun error => ?_
  split
  · exact Program.Spec.pure fun _ h => h
  split
  · exact (cudaSetDevice_calm hP).bind fun _ => Program.Spec.exit fun _ h => h
  · exact Program.Spec.exit fun _ h => h

theorem freeBlock_spec {Q : Session → Prop} (hQ : Calm Q) {dPtr readyEvent : ℕ}
    (h : ∀ t error, P t → Q (t.log (.free dPtr error))) :
    Program.Spec P (freeBlock runtime dPtr readyEvent) (fun _ => Q) (fun _ => Q) := by
  refine (invoke_spec (c := .free dPtr)).bind fun error => ?_
  refine Program.Spec.bind (q := fun _ => Q) (check_calm.pre ?_) fun _ =>
    (cudaEventDestroy_calm hQ).bind fun _ => check_calm
  rintro t ⟨t', ht', rfl⟩
  exact h t' error ht'

/-- **`DeviceFree` is a row of such steps.** -/
theorem deviceFree_spec {device : ℤ} {dPtr : ℕ} :
    Program.Spec (· = s₀) (deviceFree runtime device dPtr)
      (fun _ => Leads (FreeStep s₀ (deviceOf runtime s₀.history device) dPtr) s₀)
      (fun _ => Leads (FreeStep s₀ (deviceOf runtime s₀.history device) dPtr) s₀) := by
  obtain ⟨device', hdevice'⟩ : ∃ device', deviceOf runtime s₀.history device = device' := ⟨_, rfl⟩
  rw [hdevice']
  have hregular : ∀ s, FreeStep s₀ device' dPtr s .regular := fun _ => Or.inl rfl
  have hcalm : Calm (Leads (FreeStep s₀ device' dPtr) s₀) := Leads.calm hregular
  have hsame : Calm fun t => Leads (FreeStep s₀ device' dPtr) s₀ t ∧ t.allocator = s₀.allocator ∧
      freed t.history = freed s₀.history :=
    hcalm.and ((calm_allocator (· = s₀.allocator)).and (calm_freed (freed s₀.history)))
  refine ((resolveDevice_spec hsame ⟨Relation.ReflTransGen.refl, rfl, rfl⟩).weaken (fun _ h => h) (fun _ _ h => h)
    fun _ _ h => h.1).bind fun res => ?_
  obtain ⟨found, entrypointDevice⟩ := res
  dsimp only
  rw [hdevice']
  by_cases hfound : found = device'
  swap
  · exact fun t ht => absurd ht.1 hfound
  subst hfound
  refine ((enterDevice_calm hsame).weaken (fun _ h => h.2) (fun _ _ h => h) fun _ _ h => h.1).bind fun entry => ?_
  refine Program.Spec.bind (q := fun _ => Leads (FreeStep s₀ found dPtr) s₀) ?_ fun _ => leaveDevice_calm hcalm
  refine (Program.Spec.state (q := fun s' t => t = s' ∧ Leads (FreeStep s₀ found dPtr) s₀ t ∧
    t.allocator = s₀.allocator ∧ freed t.history = freed s₀.history) fun _ h => ⟨rfl, h⟩).bind fun s' => ?_
  split
  · -- the pointer of another owner
    rename_i hnone
    refine freeBlock_spec hcalm ?_
    rintro t error ⟨rfl, hleads, hallocator, hfreed⟩
    rw [hallocator] at hnone
    exact hleads.step (.foreign dPtr error) (Or.inr ⟨rfl, hallocator, hfreed, findLive_eq_none hnone⟩)
  · rename_i b others hsome
    obtain ⟨l, r, hlive, rfl, rfl, rfl⟩ := findLive_eq_some hsome
    split
    · -- the block is cached, if its event can be recorded
      have hcalm' : Calm fun t => Leads (FreeStep s₀ b.device b.dPtr) s₀ t ∧ t.allocator.liveBlocks = l ++ b :: r :=
        hcalm.and (calm_allocator (·.liveBlocks = l ++ b :: r))
      refine ((recordReady_calm hcalm').weaken ?_ (fun _ _ h => h) fun _ _ h => h.1).bind fun _ =>
        Program.Spec.change ?_
      · rintro t ⟨rfl, hleads, -⟩
        exact ⟨hleads, hlive⟩
      · rintro t ⟨hleads, hlive'⟩
        exact hleads.step (.recache hlive') (hregular t)
    · refine (Program.Spec.change (q := fun _ t => ∃ s, Leads (FreeStep s₀ b.device b.dPtr) s₀ s ∧
        t = s.update (·.removeLive b.device b (l ++ r)) ∧ s.allocator.liveBlocks = l ++ b :: r) ?_).bind fun _ => ?_
      · rintro t ⟨rfl, hleads, -⟩
        exact ⟨t, hleads, rfl, hlive⟩
      refine freeBlock_spec hcalm ?_
      rintro t error ⟨t', hleads, rfl, hlive'⟩
      exact hleads.step (.release error hlive') (hregular t')

/-! ## 5. `FreeAllCached` -/

/-- How the loop ends: without blocks, or with a call that has failed. -/
def Ended (ok : Session → Action → Prop) (s₀ : Session) (res : CudaError × ℤ) (t : Session) : Prop :=
  Leads ok s₀ t ∧ (res.1 = .success → t.allocator.cachedBlocks = []) ∧
    (res.1 ≠ .success → res.2 = invalidDeviceOrdinal ∨ ∃ c calls, t.calls = c :: calls ∧ c.failed = true)

theorem ended_failed {error : CudaError} {entrypointDevice : ℤ} {c : RuntimeCall} {t : Session} (he : error ≠ .success)
    (hleads : Leads ok s₀ (t.log c)) (hc : c.failed = true) : Ended ok s₀ (error, entrypointDevice) (t.log c) :=
  ⟨hleads, fun h => absurd h he, fun _ => Or.inr ⟨c, t.calls, rfl, hc⟩⟩

theorem findEntrypoint_spec (hP : Calm P) {entrypointDevice : ℤ} {r : Exit → Session → Prop} :
    Program.Spec P (findEntrypoint runtime entrypointDevice)
      (fun res t => P t ∧ (res.1 ≠ .success → res.2 = invalidDeviceOrdinal)) r := by
  unfold findEntrypoint
  split
  · rename_i hinvalid
    refine (cudaGetDevice_calm hP).bind fun res => Program.Spec.pure fun t ht => ⟨ht, fun he => ?_⟩
    exact (if_neg he).trans hinvalid
  · exact Program.Spec.pure fun t ht => ⟨ht, fun he => absurd rfl he⟩

/-- **The loop over all blocks.** -/
theorem freeAllLoop_spec (hok : ∀ s, ok s .regular) (hhalf : ∀ s, ok s .halfFreed) (blocks : List BlockDescriptor)
    (entrypointDevice currentDevice : ℤ) {r : Exit → Session → Prop} :
    Program.Spec (fun t => Leads ok s₀ t ∧ t.allocator.cachedBlocks = blocks)
      (freeAllLoop runtime blocks entrypointDevice currentDevice) (Ended ok s₀) r := by
  induction blocks generalizing entrypointDevice currentDevice with
  | nil => exact Program.Spec.pure fun t h => ⟨h.1, fun _ => h.2, fun he => absurd rfl he⟩
  | cons b blocks ih =>
    have hcalm : Calm fun t => Leads ok s₀ t ∧ t.allocator.cachedBlocks = b :: blocks :=
      (Leads.calm hok).and (calm_allocator (·.cachedBlocks = b :: blocks))
    unfold freeAllLoop
    refine (findEntrypoint_spec hcalm).bind fun res => ?_
    obtain ⟨error, entrypointDevice⟩ := res
    dsimp only
    by_cases he : error = .success
    swap
    · rw [if_pos he]
      exact Program.Spec.pure fun t h => ⟨h.1.1, fun h' => absurd h' he, fun _ => Or.inl (h.2 he)⟩
    rw [if_neg (not_not.mpr he)]
    refine Program.Spec.bind (q := fun error t => (Leads ok s₀ t ∧ t.allocator.cachedBlocks = b :: blocks) ∧
      (error ≠ .success → ∃ c calls, t.calls = c :: calls ∧ c.failed = true)) ?_ fun error => ?_
    · unfold changeDevice
      split
      · refine (invoke_spec (c := .setDevice b.device)).weaken (fun _ h => h) ?_ fun _ _ h => h
        rintro error t ⟨t', h, rfl⟩
        exact ⟨hcalm t' _ trivial h.1, fun he => ⟨_, t'.calls, rfl, decide_eq_true he⟩⟩
      · exact Program.Spec.pure fun t h => ⟨h.1, fun he => absurd rfl he⟩
    by_cases he : error = .success
    swap
    · rw [if_pos he]
      exact Program.Spec.pure fun t h => ⟨h.1.1, fun h' => absurd h' he, fun _ => Or.inr (h.2 he)⟩
    rw [if_neg (not_not.mpr he)]
    refine (invoke_spec (c := .free b.dPtr)).bind fun error => ?_
    by_cases he : error = .success
    swap
    · rw [if_pos he]
      refine Program.Spec.pure ?_
      rintro t ⟨t', ⟨⟨hleads, hcached⟩, -⟩, rfl⟩
      exact ended_failed he (hleads.step (.refused (l := []) hcached he) (hok t')) (decide_eq_true he)
    rw [if_neg (not_not.mpr he), he]
    refine (invoke_spec (c := .eventDestroy b.readyEvent)).bind fun error => ?_
    by_cases he : error = .success
    swap
    · rw [if_pos he]
      refine Program.Spec.pure ?_
      rintro t ⟨-, ⟨t', ⟨⟨hleads, hcached⟩, -⟩, rfl⟩, rfl⟩
      exact ended_failed he (hleads.step (.halfFreed (l := []) hcached he) (hhalf t')) (decide_eq_true he)
    rw [if_neg (not_not.mpr he), he]
    refine (Program.Spec.change ?_).bind fun _ => ih _ _
    rintro t ⟨-, ⟨t', ⟨⟨hleads, hcached⟩, -⟩, rfl⟩, rfl⟩
    exact ⟨hleads.step (.drop (l := []) hcached) (hok t'), rfl⟩

/-- **`FreeAllCached` is a row of steps.**  It reports success if no blocks are left, or if the error of a failed call
is overwritten. -/
theorem freeAllCached_spec (hok : ∀ s, ok s .regular) (hhalf : ∀ s, ok s .halfFreed) :
    Program.Spec (Leads ok s₀) (freeAllCached runtime)
      (fun _ t => Leads ok s₀ t ∧ (t.allocator.cachedBlocks = [] ∨
        ∃ c c' calls, t.calls = c :: c' :: calls ∧ c.overwritten c' = true))
      (fun _ => Leads ok s₀) := by
  have hcalm : Calm (Leads ok s₀) := Leads.calm hok
  refine (Program.Spec.state (q := fun s' t => t.allocator.cachedBlocks = s'.allocator.cachedBlocks ∧ Leads ok s₀ t)
    fun _ h => ⟨rfl, h⟩).bind fun s' => ?_
  refine ((@freeAllLoop_spec _ s₀ _ hok hhalf _ _ _ _).pre fun t h => ⟨h.2, h.1⟩).bind fun res => ?_
  obtain ⟨error, entrypointDevice⟩ := res
  dsimp only
  split
  · rename_i hvalid
    refine (invoke_spec (c := .setDevice entrypointDevice)).bind fun error' => ?_
    refine check_spec.weaken (fun _ h => h) ?_ ?_
    · rintro _ t ⟨rfl, t', ⟨hleads, hdone, hfailed⟩, rfl⟩
      refine ⟨hcalm t' _ trivial hleads, ?_⟩
      by_cases he : error = .success
      · exact Or.inl (hdone he)
      · obtain ⟨c, calls, hcalls, hc⟩ := (hfailed he).resolve_left hvalid
        exact Or.inr ⟨_, c, calls, congrArg _ hcalls, hc⟩
    · rintro _ t ⟨t', hended, rfl⟩
      exact hcalm t' _ trivial hended.1
  · refine check_spec.weaken (fun _ h => h) ?_ fun _ t h => h.1
    rintro _ t ⟨rfl, hleads, hdone, -⟩
    exact ⟨hleads, Or.inl (hdone rfl)⟩

end Cccl.CachingAllocator
