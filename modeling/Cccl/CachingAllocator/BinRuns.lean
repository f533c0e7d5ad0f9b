/-
# Blocks are as large as their bins

A new block has the size of its bin, if `NearestPowerOf` has found the bin, and if the size of the smallest bin is a
number of 32 bits (`RequestFits`).  Then a cached block of the bin has this size, too, and what `DeviceAllocate` returns
is large enough.  This is so in every run in which all requests fit (`reachable_binned`, `perform_served`).

The size of the smallest bin is computed in 32 bits.  A request below a larger one gets a block that is too small
(`not_perform_served`).
-/
import Cccl.CachingAllocator.Bins
import Cccl.CachingAllocator.Runs

namespace Cccl.CachingAllocator

open CachingDeviceAllocator

/-! ## 1. Blocks and bins -/

/-- The block is as large as its bin says, if it has one. -/
def InBin (growth : BitVec 32) (b : BlockDescriptor) : Prop :=
  b.bin ≠ invalidBin → b.bytes.toNat = growth.toNat ^ b.bin.toNat

/-- An allocator with a configuration, and blocks that are as large as their bins say. -/
structure Binned (growth minBin maxBin : BitVec 32) (A : CachingDeviceAllocator) : Prop where
  binGrowth_eq : A.binGrowth = growth
  minBin_eq : A.minBin = minBin
  maxBin_eq : A.maxBin = maxBin
  minBinBytes_eq : A.minBinBytes = (intPow growth minBin).setWidth 64
  live : ∀ b ∈ A.liveBlocks, InBin growth b
  cached : ∀ b ∈ A.cachedBlocks, InBin growth b

/-- The request gets a bin that `NearestPowerOf` has found, or none. -/
def RequestFits (growth minBin maxBin : BitVec 32) (bytes : BitVec 64) : Prop :=
  Overflows growth bytes ∧ maxBin.toNat < 64 ∨
    ¬Overflows growth bytes ∧ ∃ k, IsLeast {k | IsPower growth bytes k} k ∧
      (k < minBin.toNat → growth.toNat ^ minBin.toNat < 2 ^ 32)

/-- A block for so many bytes. -/
def Served (growth : BitVec 32) (bytes : BitVec 64) (dPtr : ℕ) (A : CachingDeviceAllocator) : Prop :=
  ∃ b ∈ A.liveBlocks, b.dPtr = dPtr ∧ bytes ≤ b.bytes ∧ InBin growth b

variable {runtime : Runtime} {growth minBin maxBin : BitVec 32} {A : CachingDeviceAllocator} {b key : BlockDescriptor}
  {l r : List BlockDescriptor} {device : ℤ} {bytes : BitVec 64}

theorem Binned.addLive (h : Binned growth minBin maxBin A) (hb : InBin growth b) :
    Binned growth minBin maxBin (A.addLive device b) := by
  refine { h with live := fun x hx => ?_ }
  rcases List.mem_cons.mp ((insertBlock_perm _ _ _).mem_iff.mp hx) with rfl | hx
  · exact hb
  · exact h.live x hx

theorem Binned.addCached (h : Binned growth minBin maxBin A) (hb : InBin growth b) :
    Binned growth minBin maxBin (A.addCached device b) := by
  refine { h with cached := fun x hx => ?_ }
  rcases List.mem_cons.mp ((insertBlock_perm _ _ _).mem_iff.mp hx) with rfl | hx
  · exact hb
  · exact h.cached x hx

theorem mem_middle {x : BlockDescriptor} (hx : x ∈ l ++ r) : x ∈ l ++ b :: r :=
  List.perm_middle.mem_iff.mpr (List.mem_cons_of_mem b hx)

theorem Binned.removeLive (h : Binned growth minBin maxBin A) (hlive : A.liveBlocks = l ++ b :: r) :
    Binned growth minBin maxBin (A.removeLive device b (l ++ r)) :=
  { h with live := fun x hx => h.live x (hlive ▸ mem_middle hx) }

theorem Binned.removeCached (h : Binned growth minBin maxBin A) (hcached : A.cachedBlocks = l ++ b :: r) :
    Binned growth minBin maxBin (A.removeCached device b (l ++ r)) :=
  { h with cached := fun x hx => h.cached x (hcached ▸ mem_middle hx) }

/-- **The bin of a request that fits.**  A request that is looked for in the cache has the size of its bin. -/
theorem requestSize_of_fits (h : Binned growth minBin maxBin A) (hgrowth : 2 ≤ growth.toNat)
    (hfits : RequestFits growth minBin maxBin bytes) {bin : BitVec 32} {size : BitVec 64} {cacheable : Bool}
    (hsize : requestSize A bytes = some (bin, size, cacheable)) :
    bytes ≤ size ∧ if cacheable then bin ≠ invalidBin ∧ size.toNat = growth.toNat ^ bin.toNat else bin = invalidBin := by
  obtain ⟨r, hr, heq⟩ := Option.map_eq_some_iff.mp hsize
  obtain ⟨power, rounded⟩ := r
  rw [h.binGrowth_eq] at hr
  dsimp only at heq
  rw [h.maxBin_eq, h.minBin_eq, h.minBinBytes_eq] at heq
  -- a size that is a power has a bin
  have hvalid : ∀ {bin : BitVec 32} {size : BitVec 64}, size.toNat = growth.toNat ^ bin.toNat → bin ≠ invalidBin := by
    rintro bin size hpow rfl
    have hlt : growth.toNat ^ invalidBin.toNat < 2 ^ 64 := hpow ▸ size.isLt
    have hless := (Nat.pow_le_pow_left hgrowth invalidBin.toNat).trans_lt hlt
    exact absurd ((Nat.pow_lt_pow_iff_right (by decide)).mp hless) (by decide)
  rcases nearestPowerOf_eq_some_iff.mp hr with ⟨hover, hpair⟩ | ⟨hnot, j, -, hstop, hpair⟩
  · -- the early return: the bin is above the largest one
    obtain ⟨rfl, rfl⟩ := Prod.mk.inj hpair
    have hmax : maxBin.toNat < 64 := by
      rcases hfits with hmax | hmax
      · exact hmax.2
      · exact absurd hover hmax.1
    rw [if_pos (BitVec.lt_def.mpr hmax)] at heq
    cases heq
    exact ⟨BitVec.le_refl _, rfl⟩
  · obtain ⟨k, hleast, hmin⟩ : ∃ k, IsLeast {k | IsPower growth bytes k} k ∧
        (k < minBin.toNat → growth.toNat ^ minBin.toNat < 2 ^ 32) := by
      rcases hfits with hmax | hmax
      · exact absurd hmax.1 hnot
      · exact hmax.2
    obtain rfl : j = k := by
      have hstop' := stopsAt_of_isLeast hgrowth hleast
      rcases lt_trichotomy j k with hlt | heq | hgt
      · exact absurd hstop.reached (Nat.not_le.mpr (hstop'.before j (Nat.zero_le j) hlt))
      · exact heq
      · exact absurd hstop'.reached (Nat.not_le.mpr (hstop.before k (Nat.zero_le k) hgt))
    obtain ⟨rfl, rfl⟩ := Prod.mk.inj hpair
    have hk := hleast.1.lt hgrowth
    have hbin : (BitVec.ofNat 32 j).toNat = j := by
      rw [BitVec.toNat_ofNat]
      omega
    have hbytes : (BitVec.ofNat 64 (growth.toNat ^ j)).toNat = growth.toNat ^ j := by
      rw [BitVec.toNat_ofNat, Nat.mod_eq_of_lt hleast.1.2]
    split at heq
    · cases heq
      exact ⟨BitVec.le_refl _, rfl⟩
    · split at heq
      · rename_i hless
        rw [BitVec.lt_def, hbin] at hless
        have hpow : ((intPow growth minBin).setWidth 64).toNat = growth.toNat ^ minBin.toNat := by
          rw [BitVec.toNat_setWidth, intPow_toNat, Nat.mod_eq_of_lt (hmin hless),
            Nat.mod_eq_of_lt ((hmin hless).trans (by decide))]
        cases heq
        refine ⟨?_, ?_⟩
        · rw [BitVec.le_def, hpow]
          exact hleast.1.1.trans (Nat.pow_le_pow_right (by omega) hless.le)
        · exact ⟨hvalid hpow, hpow⟩
      · cases heq
        refine ⟨?_, ?_⟩
        · rw [BitVec.le_def, hbytes]
          exact hleast.1.1
        · have hpow : (BitVec.ofNat 64 (growth.toNat ^ j)).toNat = growth.toNat ^ (BitVec.ofNat 32 j).toNat := by
            rw [hbin, hbytes]
          exact ⟨hvalid hpow, hpow⟩

/-! ## 2. The functions -/

/-- The blocks in a call. -/
def InCall (growth minBin maxBin : BitVec 32) (s : Session) : Prop := Binned growth minBin maxBin s.allocator

theorem calm_inCall : Calm (InCall growth minBin maxBin) := calm_allocator (Binned growth minBin maxBin)

theorem reuseBlock_inCall {r : Exit → Session → Prop} :
    Program.Spec (InCall growth minBin maxBin) (reuseBlock runtime key)
      (fun found t => InCall growth minBin maxBin t ∧ ∀ b, found = some b → b ∈ t.allocator.liveBlocks ∧ b.bin = key.bin)
      r := by
  refine (Program.Spec.state (q := fun s' s => s.allocator = s'.allocator ∧ InCall growth minBin maxBin s)
    fun _ h => ⟨rfl, h⟩).bind fun s' => ?_
  refine (searchCached_spec ((calm_allocator (· = s'.allocator)).and calm_inCall) _).bind fun found => ?_
  rcases found with _ | ⟨b, others⟩
  · exact Program.Spec.pure fun t h => ⟨h.1.2, fun b hb => absurd hb (by simp)⟩
  · refine (Program.Spec.change (q := fun _ t => InCall growth minBin maxBin t ∧
      { b with associatedStream := key.associatedStream } ∈ t.allocator.liveBlocks ∧ b.bin = key.bin) ?_).bind fun _ =>
        Program.Spec.pure ?_
    · rintro t ⟨⟨hallocator, hbinned⟩, hfound⟩
      obtain ⟨l, r, hblocks, rfl, -, hbin⟩ := hfound b others rfl
      have hcached : t.allocator.cachedBlocks =
          (s'.allocator.cachedBlocks.takeWhile (sizeCompare · key) ++ l) ++ b :: r := by
        rw [List.append_assoc, ← hblocks, List.takeWhile_append_dropWhile, hallocator]
      have hb : InBin growth b := hbinned.cached b (hcached ▸ List.mem_append_right _ List.mem_cons_self)
      rw [← List.append_assoc]
      refine ⟨(hbinned.removeCached hcached).addLive (b := { b with associatedStream := key.associatedStream }) hb, ?_,
        hbin⟩
      exact (insertBlock_perm _ _ _).mem_iff.mpr List.mem_cons_self
    · rintro t ⟨hbinned, hlive, hbin⟩
      refine ⟨hbinned, fun b' hb' => ?_⟩
      cases hb'
      exact ⟨hlive, hbin⟩

theorem freeDeviceBlocks_inCall {before : List BlockDescriptor} (blocks : List BlockDescriptor)
    {r : Exit → Session → Prop} :
    Program.Spec (fun t => InCall growth minBin maxBin t ∧ t.allocator.cachedBlocks = before ++ blocks)
      (freeDeviceBlocks runtime device before blocks) (fun _ => InCall growth minBin maxBin) r := by
  induction blocks with
  | nil => exact Program.Spec.pure fun t h => h.1
  | cons b blocks ih =>
    have hcalm : Calm fun t => InCall growth minBin maxBin t ∧ t.allocator.cachedBlocks = before ++ b :: blocks :=
      calm_inCall.and (calm_allocator (·.cachedBlocks = before ++ b :: blocks))
    unfold freeDeviceBlocks
    split
    swap
    · exact Program.Spec.pure fun t h => h.1
    refine Program.Spec.bind (q := fun _ t => InCall growth minBin maxBin t ∧
      t.allocator.cachedBlocks = before ++ b :: blocks) ?_ fun error => ?_
    · refine (invoke_spec (c := .free b.dPtr)).weaken (fun _ h => h) ?_ fun _ _ h => h
      rintro error t ⟨t', h, rfl⟩
      exact h
    split
    · exact Program.Spec.pure fun t h => h.1
    refine (cudaEventDestroy_calm hcalm).bind fun error => ?_
    split
    · exact Program.Spec.pure fun t h => h.1
    · exact (Program.Spec.change fun t h => ⟨h.1.removeCached h.2, rfl⟩).bind fun _ => ih

theorem cudaMalloc_inCall {old : ℕ} {r : Exit → Session → Prop} :
    Program.Spec (InCall growth minBin maxBin) (cudaMalloc runtime old bytes) (fun _ => InCall growth minBin maxBin)
      r := by
  refine cudaMalloc_spec.weaken (fun _ h => h) ?_ fun _ _ h => h
  rintro res t ⟨s, dPtr, hs, rfl, -, -⟩
  exact hs

theorem allocateMemory_inCall : Program.Spec (InCall growth minBin maxBin) (allocateMemory runtime key)
    (fun _ => InCall growth minBin maxBin) (fun _ => InCall growth minBin maxBin) := by
  refine cudaMalloc_inCall.bind fun res => ?_
  dsimp only
  split
  · refine (Program.Spec.state (q := fun s' t => s'.allocator = t.allocator ∧ InCall growth minBin maxBin t)
      fun _ h => ⟨rfl, h⟩).bind fun s' => ?_
    refine ((freeDeviceBlocks_inCall _).pre ?_).bind fun error => check_calm.bind fun _ => cudaMalloc_inCall.bind
      fun res => check_calm.bind fun _ => Program.Spec.pure fun _ h => h
    rintro t ⟨hallocator, hbinned⟩
    exact ⟨hbinned, by rw [List.takeWhile_append_dropWhile, hallocator]⟩
  · exact Program.Spec.pure fun _ h => h

/-- **A new block** is as large as its key. -/
theorem allocateBlock_inCall (hkey : InBin growth key) :
    Program.Spec (InCall growth minBin maxBin) (allocateBlock runtime key)
      (fun dPtr t => InCall growth minBin maxBin t ∧ Served growth key.bytes dPtr t.allocator)
      (fun _ => InCall growth minBin maxBin) := by
  refine allocateMemory_inCall.bind fun dPtr => Program.Spec.bind (q := fun _ => InCall growth minBin maxBin) ?_
    fun res => check_calm.bind fun _ => ?_
  · refine cudaEventCreate_spec.weaken (fun _ h => h) ?_ fun _ _ h => h
    rintro res t ⟨s, hs, rfl⟩
    exact hs
  refine (Program.Spec.change (q := fun _ t => InCall growth minBin maxBin t ∧ Served growth key.bytes dPtr t.allocator)
    fun t ht => ⟨?_, ?_⟩).bind fun _ => Program.Spec.pure fun _ h => h
  · exact Binned.addLive (b := { key with dPtr := dPtr, readyEvent := res.2 }) ht hkey
  · exact ⟨_, (insertBlock_perm _ _ _).mem_iff.mpr List.mem_cons_self, rfl, BitVec.le_refl _, hkey⟩

/-- **`DeviceAllocate`** returns a block that is large enough, if the request fits. -/
theorem deviceAllocate_inCall (hgrowth : 2 ≤ growth.toNat) (hfits : RequestFits growth minBin maxBin bytes)
    {activeStream : ℕ} :
    Program.Spec (InCall growth minBin maxBin) (deviceAllocate runtime device bytes activeStream)
      (fun dPtr t => InCall growth minBin maxBin t ∧ Served growth bytes dPtr t.allocator)
      (fun _ => InCall growth minBin maxBin) := by
  refine (resolveDevice_calm calm_inCall).bind fun res => ?_
  obtain ⟨device, entrypointDevice⟩ := res
  refine (Program.Spec.state (q := fun s' s => s' = s ∧ InCall growth minBin maxBin s) fun _ h => ⟨rfl, h⟩).bind
    fun s' => ?_
  by_cases hbinned : InCall growth minBin maxBin s'
  swap
  · exact fun s hs => absurd hs.2 (hs.1 ▸ hbinned)
  dsimp only
  split
  · exact Program.Spec.exit fun _ h => h.2
  rename_i bin size cacheable hsize
  obtain ⟨hle, hbin⟩ := requestSize_of_fits hbinned hgrowth hfits hsize
  refine Program.Spec.bind (q := fun found t => InCall growth minBin maxBin t ∧
    ∀ b : BlockDescriptor, found = some b → Served growth bytes b.dPtr t.allocator) ?_ fun found => ?_
  · unfold lookUp
    split
    · rename_i hcache
      rw [if_pos hcache] at hbin
      refine reuseBlock_inCall.weaken (fun _ h => h.2) ?_ fun _ _ h => h
      rintro found t ⟨ht, hfound⟩
      refine ⟨ht, fun b hb => ?_⟩
      obtain ⟨hlive, heq⟩ := hfound b hb
      have hin := ht.live b hlive
      -- a cached block of the bin has its size
      refine ⟨b, hlive, rfl, ?_, hin⟩
      have hbytes : b.bytes = size := by
        refine BitVec.eq_of_toNat_eq ?_
        rw [hin (heq ▸ hbin.1), hbin.2, heq]
      rwa [hbytes]
    · exact Program.Spec.pure fun t h => ⟨h.2, fun b hb => absurd hb (by simp)⟩
  cases found with
  | some block => exact Program.Spec.pure fun t h => ⟨h.1, h.2 block rfl⟩
  | none =>
    have hkey : InBin growth ⟨0, size, bin, device, activeStream, 0⟩ := by
      intro hvalid
      split at hbin
      · exact hbin.2
      · exact absurd hbin hvalid
    refine ((enterDevice_calm calm_inCall).weaken (fun _ h => h.1) (fun _ _ h => h) fun _ _ h => h).bind fun entry => ?_
    refine (allocateBlock_inCall hkey).bind fun dPtr => ?_
    have hboth : Calm fun t => InCall growth minBin maxBin t ∧ Served growth bytes dPtr t.allocator :=
      calm_inCall.and (calm_allocator (Served growth bytes dPtr))
    refine ((leaveDevice_calm hboth).weaken ?_ (fun _ _ h => h) fun _ _ h => h.1).bind fun _ =>
      Program.Spec.pure fun _ h => h
    rintro t ⟨ht, b, hlive, hptr, hsize', hin⟩
    exact ⟨ht, b, hlive, hptr, BitVec.le_trans hle hsize', hin⟩

theorem deviceFree_inCall {dPtr : ℕ} : Program.Spec (InCall growth minBin maxBin) (deviceFree runtime device dPtr)
    (fun _ => InCall growth minBin maxBin) (fun _ => InCall growth minBin maxBin) := by
  refine (resolveDevice_calm calm_inCall).bind fun res => (enterDevice_calm calm_inCall).bind fun entry =>
    Program.Spec.bind (q := fun _ => InCall growth minBin maxBin) ?_ fun _ => leaveDevice_calm calm_inCall
  refine (Program.Spec.state (q := fun s' t => t.allocator = s'.allocator ∧ InCall growth minBin maxBin t)
    fun _ h => ⟨rfl, h⟩).bind fun s' => ?_
  split
  · exact freeBlock_spec calm_inCall fun t error ht => ht.2
  · rename_i b others hsome
    obtain ⟨l, r, hlive, rfl, -, -⟩ := findLive_eq_some hsome
    have hmem : ∀ {t : Session}, t.allocator = s'.allocator ∧ InCall growth minBin maxBin t → InBin growth b :=
      fun ht => ht.2.live b (ht.1 ▸ hlive ▸ List.mem_append_right _ List.mem_cons_self)
    split
    · refine (recordReady_calm ((calm_allocator (· = s'.allocator)).and calm_inCall)).weaken (fun _ h => h)
        (fun _ _ h => h) (fun _ _ h => h.2) |>.bind fun _ => Program.Spec.change fun t ht => ?_
      exact (ht.2.removeLive (ht.1 ▸ hlive)).addCached (hmem ht)
    · refine (Program.Spec.change (q := fun _ => InCall growth minBin maxBin) fun t ht => ?_).bind fun _ =>
        freeBlock_spec calm_inCall fun t error ht => ht
      exact ht.2.removeLive (ht.1 ▸ hlive)

theorem freeAllLoop_inCall (blocks : List BlockDescriptor) (entrypointDevice currentDevice : ℤ)
    {r : Exit → Session → Prop} :
    Program.Spec (fun t => InCall growth minBin maxBin t ∧ t.allocator.cachedBlocks = blocks)
      (freeAllLoop runtime blocks entrypointDevice currentDevice) (fun _ => InCall growth minBin maxBin) r := by
  induction blocks generalizing entrypointDevice currentDevice with
  | nil => exact Program.Spec.pure fun t h => h.1
  | cons b blocks ih =>
    have hcalm : Calm fun t => InCall growth minBin maxBin t ∧ t.allocator.cachedBlocks = b :: blocks :=
      calm_inCall.and (calm_allocator (·.cachedBlocks = b :: blocks))
    unfold freeAllLoop
    refine ((findEntrypoint_spec hcalm).weaken (fun _ h => h) (fun _ _ h => h.1) fun _ _ h => h).bind fun res => ?_
    dsimp only
    split
    · exact Program.Spec.pure fun t h => h.1
    refine Program.Spec.bind (q := fun _ t => InCall growth minBin maxBin t ∧ t.allocator.cachedBlocks = b :: blocks) ?_
      fun error => ?_
    · unfold changeDevice
      split
      · exact cudaSetDevice_calm hcalm
      · exact Program.Spec.pure fun t h => h
    split
    · exact Program.Spec.pure fun t h => h.1
    refine Program.Spec.bind (q := fun _ t => InCall growth minBin maxBin t ∧ t.allocator.cachedBlocks = b :: blocks) ?_
      fun error => ?_
    · refine (invoke_spec (c := .free b.dPtr)).weaken (fun _ h => h) ?_ fun _ _ h => h
      rintro error t ⟨t', h, rfl⟩
      exact h
    split
    · exact Program.Spec.pure fun t h => h.1
    refine (cudaEventDestroy_calm hcalm).bind fun error => ?_
    split
    · exact Program.Spec.pure fun t h => h.1
    · exact (Program.Spec.change fun t h => ⟨h.1.removeCached (l := []) h.2, rfl⟩).bind fun _ => ih _ _

theorem freeAllCached_inCall : Program.Spec (InCall growth minBin maxBin) (freeAllCached runtime)
    (fun _ => InCall growth minBin maxBin) (fun _ => InCall growth minBin maxBin) := by
  refine (Program.Spec.state (q := fun s' t => t.allocator.cachedBlocks = s'.allocator.cachedBlocks ∧
    InCall growth minBin maxBin t) fun _ h => ⟨rfl, h⟩).bind fun s' => ?_
  refine ((freeAllLoop_inCall _ _ _).pre fun t h => ⟨h.2, h.1⟩).bind fun res => ?_
  dsimp only
  split
  · exact (cudaSetDevice_calm calm_inCall).bind fun _ => check_calm
  · exact check_calm

/-! ## 3. Runs -/

/-- All requests for memory fit. -/
def AllFit (σ : System) (request : Request) (_ : History) : Prop :=
  2 ≤ σ.allocator.binGrowth.toNat ∧ match request with
    | .deviceAllocate _ bytes _ => RequestFits σ.allocator.binGrowth σ.allocator.minBin σ.allocator.maxBin bytes
    | _ => True

variable {σ : System} {request : Request} {outcome : Outcome} {t : Session}

theorem of_perform_spec {q : ℕ → Session → Prop} {r p : Session → Prop}
    (h : perform runtime request σ = some (outcome, t)) (hp : p σ.start)
    (hspec : Program.Spec p (request.call runtime) q fun _ => r) : outcome.error = .success ∧ q outcome.dPtr t ∨ outcome.error ≠ .success ∧ r t :=
  perform_of_spec (hspec.pre fun _ hs => hs ▸ hp) h

/-- **A call in which the request fits** keeps the sizes, and returns a block that is large enough. -/
theorem perform_inCall (h : perform runtime request σ = some (outcome, t))
    (hbinned : Binned growth minBin maxBin σ.allocator) (hfit : AllFit σ request t.calls) :
    Binned growth minBin maxBin t.allocator ∧ match request with
      | .deviceAllocate _ bytes _ => outcome.error = .success → Served growth bytes outcome.dPtr t.allocator
      | _ => True := by
  obtain ⟨hgrowth, hfits⟩ := hfit
  rw [hbinned.binGrowth_eq] at hgrowth
  cases request with
  | deviceAllocate device bytes activeStream =>
    dsimp only at hfits
    rw [hbinned.binGrowth_eq, hbinned.minBin_eq, hbinned.maxBin_eq] at hfits
    rcases of_perform_spec h hbinned (deviceAllocate_inCall hgrowth hfits) with ⟨-, ht, hserved⟩ | ⟨he, ht⟩
    · exact ⟨ht, fun _ => hserved⟩
    · exact ⟨ht, fun h' => absurd h' he⟩
  | deviceFree device dPtr =>
    rcases of_perform_spec h hbinned (withoutPointer_spec deviceFree_inCall) with
      ⟨-, ht⟩ | ⟨-, ht⟩
    · exact ⟨ht, trivial⟩
    · exact ⟨ht, trivial⟩
  | freeAllCached =>
    rcases of_perform_spec h hbinned (withoutPointer_spec freeAllCached_inCall) with
      ⟨-, ht⟩ | ⟨-, ht⟩
    · exact ⟨ht, trivial⟩
    · exact ⟨ht, trivial⟩
  | setMaxCachedBytes maxCachedBytes =>
    cases h
    exact ⟨{ hbinned with }, trivial⟩

theorem reachable_binned (h : (runs runtime AllFit).Reachable σ) :
    Binned σ.allocator.binGrowth σ.allocator.minBin σ.allocator.maxBin σ.allocator := by
  refine h.invariant (P := fun σ =>
    Binned σ.allocator.binGrowth σ.allocator.minBin σ.allocator.maxBin σ.allocator) ?_ ?_
  · rintro σ ⟨binGrowth, minBin, maxBin, maxCachedBytes, rfl⟩
    exact ⟨rfl, rfl, rfl, rfl, fun b hb => absurd hb List.not_mem_nil, fun b hb => absurd hb List.not_mem_nil⟩
  · rintro σ request σ' hσ ⟨outcome, s, hperform, hfit, rfl⟩
    have hs := (perform_inCall hperform hσ hfit).1
    change Binned s.allocator.binGrowth s.allocator.minBin s.allocator.maxBin s.allocator
    rw [hs.binGrowth_eq, hs.minBin_eq, hs.maxBin_eq]
    exact hs

/-- **Blocks are large enough.**  In every run in which all requests fit, all blocks are as large as their bins say, and
a block that `DeviceAllocate` returns has as many bytes as requested. -/
theorem perform_served (runtime : Runtime) {σ : System} {device : ℤ} {bytes : BitVec 64} {activeStream : ℕ}
    {outcome : Outcome} {t : Session} (hreachable : (runs runtime AllFit).Reachable σ)
    (h : perform runtime (.deviceAllocate device bytes activeStream) σ = some (outcome, t))
    (hfit : AllFit σ (.deviceAllocate device bytes activeStream) t.calls) :
    (∀ b ∈ t.allocator.liveBlocks ++ t.allocator.cachedBlocks, b.bin ≠ invalidBin →
      b.bytes.toNat = σ.allocator.binGrowth.toNat ^ b.bin.toNat) ∧
    (outcome.error = .success → ∃ b ∈ t.allocator.liveBlocks, b.dPtr = outcome.dPtr ∧ bytes ≤ b.bytes ∧
      (b.bin ≠ invalidBin → b.bytes.toNat = σ.allocator.binGrowth.toNat ^ b.bin.toNat)) := by
  obtain ⟨hbinned, hserved⟩ := perform_inCall h (reachable_binned hreachable) hfit
  refine ⟨fun b hb => ?_, hserved⟩
  rcases List.mem_append.mp hb with hlive | hcached
  · exact hbinned.live b hlive
  · exact hbinned.cached b hcached

/-- 100 bytes from the default allocator. -/
theorem served_hundred : ∃ t, perform willing (.deviceAllocate 0 100 0) initial = some (⟨.success, 1⟩, t) ∧
    ∃ b ∈ t.allocator.liveBlocks, b.dPtr = 1 ∧ 100 ≤ b.bytes := by
  have hrun : (perform willing (.deviceAllocate 0 100 0) initial).map (fun x => x.1) = some ⟨.success, 1⟩ := by
    decide
  obtain ⟨⟨outcome, t⟩, ht, rfl⟩ := Option.map_eq_some_iff.mp hrun
  have hleast : IsLeast {k | IsPower 8 100 k} 3 := by
    refine ⟨⟨by decide, by decide⟩, fun n hn => ?_⟩
    by_contra hless
    exact absurd (hn.1.trans (Nat.pow_le_pow_right (by decide) (show n ≤ 2 by omega))) (by decide)
  obtain ⟨-, hserved⟩ := perform_served willing reachable_initial ht
    ⟨by decide, Or.inr ⟨by rw [Overflows]; decide, 3, hleast, fun _ => by decide⟩⟩
  obtain ⟨b, hb, hptr, hle, -⟩ := hserved rfl
  exact ⟨t, ht, b, hb, hptr, hle⟩

/-- The smallest bin has `3 ^ 21` bytes, which are cut to 32 bits: a request for `3 ^ 20` bytes gets a smaller block. -/
theorem not_perform_served : ¬∀ (runtime : Runtime) (σ : System) (device : ℤ) (bytes : BitVec 64) (activeStream : ℕ)
    (outcome : Outcome) (t : Session), (runs runtime fun _ _ _ => True).Reachable σ →
    2 ≤ σ.allocator.binGrowth.toNat → σ.allocator.minBin ≤ σ.allocator.maxBin →
    perform runtime (.deviceAllocate device bytes activeStream) σ = some (outcome, t) → outcome.error = .success →
    ∃ b ∈ t.allocator.liveBlocks, b.dPtr = outcome.dPtr ∧ bytes ≤ b.bytes ∧
      (b.bin ≠ invalidBin → b.bytes.toNat = σ.allocator.binGrowth.toNat ^ b.bin.toNat) := by
  intro h
  obtain ⟨σ, hσ⟩ : ∃ σ : System, σ = ⟨create 3 21 30 0, []⟩ := ⟨_, rfl⟩
  have hreachable : (runs willing fun _ _ _ => True).Reachable σ := Lts.Reachable.init ⟨3, 21, 30, 0, hσ⟩
  have hrun : (perform willing (.deviceAllocate 0 3486784401 0) σ).map (fun x => (x.1,
      x.2.allocator.liveBlocks.map BlockDescriptor.bytes)) = some (⟨.success, 1⟩, [1870418611]) := by
    subst hσ
    decide
  obtain ⟨⟨outcome, t⟩, ht, hpair⟩ := Option.map_eq_some_iff.mp hrun
  obtain ⟨rfl, hblocks⟩ := Prod.mk.inj hpair
  obtain ⟨b, hb, -, hle, -⟩ := h willing σ 0 3486784401 0 _ t hreachable (by subst hσ; decide) (by subst hσ; decide) ht rfl
  have hmem : b.bytes ∈ t.allocator.liveBlocks.map BlockDescriptor.bytes := List.mem_map_of_mem hb
  rw [show t.allocator.liveBlocks.map BlockDescriptor.bytes = [1870418611] from hblocks, List.mem_singleton] at hmem
  rw [hmem] at hle
  revert hle
  decide

end Cccl.CachingAllocator
