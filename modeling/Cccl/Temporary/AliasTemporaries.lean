/-
# The layout of temporary storage

`alias_temporaries` rounds each size up to the alignment, and adds the sizes to offsets from the first aligned address of
the buffer; the slack for that address is added to the size it asks for.  All this is in `size_t`, without a check.

If the rounded sizes fit, no sum wraps, and the blocks are one behind the other (`blocks_inside`).  If they do not, less is
asked for than the blocks are together, so they cannot be apart in a buffer of that size (`sum_le_card`).  So the layout is
right if and only if the rounded sizes fit (`laysOut_iff`).  `layout` maps its slots to such blocks, once
(`mapToBuffer_eq`).
-/
import Mathlib

namespace Cccl.Temporary

/-! ## 1. The code -/

/-- `ceil_div` in `size_t`. -/
def ceilDiv (onDevice : Bool) (a b : ℕ) : ℕ :=
  if onDevice then min a ((1 + (a + 2 ^ 64 - 1) % 2 ^ 64 / b) % 2 ^ 64)
  else
    let res := a / b
    res + (decide (res * b ≠ a)).toNat

def alignBytes : ℕ := 256

def roundUp (onDevice : Bool) (a b : ℕ) : ℕ := ceilDiv onDevice a b * b % 2 ^ 64

/-- `align_up`, of an address. -/
def alignUp (ptr alignment : ℕ) : ℕ := (ptr + (alignment - 1)) % 2 ^ 64 / alignment * alignment

/-- What is returned. -/
inductive Status where
  | success
  | errorInvalidValue
  | errorAlreadyMapped
  deriving DecidableEq

/-- The status with the arguments that are written. -/
structure Result where
  status : Status
  tempStorageBytes : ℕ
  allocations : List ℕ
  deriving DecidableEq

/-- The loop of `alias_temporaries`: the offsets, and `bytes_needed` behind them. -/
def allocationOffsets (onDevice : Bool) : List ℕ → ℕ → List ℕ × ℕ
  | [], bytesNeeded => ([], bytesNeeded)
  | size :: sizes, bytesNeeded =>
    let rest := allocationOffsets onDevice sizes ((bytesNeeded + roundUp onDevice size alignBytes) % 2 ^ 64)
    (bytesNeeded :: rest.1, rest.2)

def aliasTemporaries (onDevice : Bool) (dTempStorage tempStorageBytes : ℕ) (allocations allocationSizes : List ℕ) :
    Result :=
  let offsets := allocationOffsets onDevice allocationSizes 0
  let bytesNeeded := (offsets.2 + (alignBytes - 1)) % 2 ^ 64
  if dTempStorage = 0 then ⟨.success, bytesNeeded, allocations⟩
  else if tempStorageBytes < bytesNeeded then ⟨.errorInvalidValue, tempStorageBytes, allocations⟩
  else
    ⟨.success, tempStorageBytes,
      offsets.1.map fun offset => (alignUp dTempStorage alignBytes + offset) % 2 ^ 64⟩

/-- `layout`, with the slots as their sizes and pointers. -/
structure Layout where
  slots : List (ℕ × ℕ)
  sizes : List ℕ
  pointers : List ℕ
  wasMapped : Bool

namespace Layout

def prepareInterface (L : Layout) : Layout :=
  if L.wasMapped then L else { L with sizes := L.slots.map Prod.fst, pointers := L.slots.map fun _ => 0 }

def getSize (onDevice : Bool) (L : Layout) : ℕ :=
  let L := L.prepareInterface
  let tempStorageBytes := (aliasTemporaries onDevice 0 0 L.pointers L.sizes).tempStorageBytes
  if tempStorageBytes = 0 then 1 else tempStorageBytes

def mapToBuffer (onDevice : Bool) (L : Layout) (dTempStorage tempStorageBytes : ℕ) : Status × Layout :=
  if L.wasMapped then (.errorAlreadyMapped, L)
  else
    let L := L.prepareInterface
    let result := aliasTemporaries onDevice dTempStorage tempStorageBytes L.pointers L.sizes
    if result.status = .success then
      (.success, { L with
        slots := (L.slots.zip result.allocations).map fun p => (p.1.1, p.2)
        pointers := result.allocations
        wasMapped := true })
    else (result.status, L)

end Layout

/-! ## 2. What it is for -/

/-- The bytes of a block, from its pointer and its size. -/
def block (b : ℕ × ℕ) : Finset ℕ := Finset.Ico b.1 (b.1 + b.2)

/-- Blocks of the sizes, aligned, apart, and in the buffer. -/
structure LaidOut (buffer bytes : ℕ) (pointers sizes : List ℕ) : Prop where
  length : pointers.length = sizes.length
  aligned : ∀ p ∈ pointers, p % 256 = 0
  disjoint : (pointers.zip sizes).Pairwise fun a b => Disjoint (block a) (block b)
  inside : ∀ b ∈ pointers.zip sizes, block b ⊆ Finset.Ico buffer (buffer + bytes)

/-- A call without a buffer asks for a size, with which each buffer in memory is laid out, and without which it is
rejected. -/
def LaysOut (onDevice : Bool) (sizes : List ℕ) : Prop :=
  ∀ (bytes₀ : ℕ) (pointers : List ℕ),
    (aliasTemporaries onDevice 0 bytes₀ pointers sizes).status = .success ∧
    (aliasTemporaries onDevice 0 bytes₀ pointers sizes).allocations = pointers ∧
    ∀ buffer bytes : ℕ, 0 < buffer → buffer + bytes ≤ 2 ^ 64 →
      (bytes < (aliasTemporaries onDevice 0 bytes₀ pointers sizes).tempStorageBytes →
        aliasTemporaries onDevice buffer bytes pointers sizes = ⟨.errorInvalidValue, bytes, pointers⟩) ∧
      ((aliasTemporaries onDevice 0 bytes₀ pointers sizes).tempStorageBytes ≤ bytes →
        (aliasTemporaries onDevice buffer bytes pointers sizes).status = .success ∧
          LaidOut buffer bytes (aliasTemporaries onDevice buffer bytes pointers sizes).allocations sizes)

/-- A size, rounded up without an end. -/
def rounded (size : ℕ) : ℕ := (size + 255) / 256 * 256

/-- All sizes, rounded up. -/
def roundedSum (sizes : List ℕ) : ℕ := (sizes.map rounded).sum

/-! ## 3. Sizes -/

variable {onDevice : Bool} {sizes : List ℕ}

theorem ceilDiv_eq {a : ℕ} (ha : a < 2 ^ 64) : ceilDiv onDevice a 256 = (a + 255) / 256 := by
  unfold ceilDiv
  split
  · omega
  · dsimp only
    by_cases hexact : a / 256 * 256 = a
    · rw [decide_eq_false (show ¬ a / 256 * 256 ≠ a from not_not.mpr hexact)]
      change a / 256 + 0 = _
      omega
    · rw [decide_eq_true (show a / 256 * 256 ≠ a from hexact)]
      change a / 256 + 1 = _
      omega

theorem roundUp_eq {a : ℕ} (ha : a < 2 ^ 64) : roundUp onDevice a alignBytes = rounded a % 2 ^ 64 := by
  unfold roundUp alignBytes
  rw [ceilDiv_eq ha, rounded]

theorem roundedSum_cons (size : ℕ) (sizes : List ℕ) : roundedSum (size :: sizes) = rounded size + roundedSum sizes := by
  rw [roundedSum, List.map_cons, List.sum_cons, roundedSum]

theorem roundedSum_mod : ∀ sizes : List ℕ, roundedSum sizes % 256 = 0
  | [] => rfl
  | size :: sizes => by
    have := roundedSum_mod sizes
    rw [roundedSum_cons, rounded]
    omega

theorem bytesNeeded_eq : ∀ {sizes : List ℕ} {start : ℕ}, (∀ s ∈ sizes, s < 2 ^ 64) → start < 2 ^ 64 →
    (allocationOffsets onDevice sizes start).2 = (start + roundedSum sizes) % 2 ^ 64
  | [], start, _, hstart => (Nat.mod_eq_of_lt hstart).symm
  | size :: sizes, start, hsizes, hstart => by
    rw [allocationOffsets, bytesNeeded_eq (fun s hs => hsizes s (List.mem_cons_of_mem _ hs)) (Nat.mod_lt _ (by decide)),
      roundUp_eq (hsizes size List.mem_cons_self), Nat.add_mod_mod, Nat.mod_add_mod, roundedSum_cons, Nat.add_assoc]

theorem length_offsets : ∀ {sizes : List ℕ} {start : ℕ}, (allocationOffsets onDevice sizes start).1.length = sizes.length
  | [], _ => rfl
  | _ :: _, _ => congrArg Nat.succ length_offsets

theorem offsets_aligned : ∀ {sizes : List ℕ} {start : ℕ}, (∀ s ∈ sizes, s < 2 ^ 64) → start % 256 = 0 →
    ∀ o ∈ (allocationOffsets onDevice sizes start).1, o % 256 = 0
  | size :: sizes, start, hsizes, hstart, o, ho => by
    rcases List.mem_cons.mp ho with rfl | ho
    · exact hstart
    · refine offsets_aligned (fun s hs => hsizes s (List.mem_cons_of_mem _ hs)) ?_ o ho
      rw [roundUp_eq (hsizes size List.mem_cons_self), rounded]
      omega

theorem asked_eq (onDevice : Bool) (hsizes : ∀ s ∈ sizes, s < 2 ^ 64) :
    ((allocationOffsets onDevice sizes 0).2 + (alignBytes - 1)) % 2 ^ 64 = roundedSum sizes % 2 ^ 64 + 255 := by
  have := roundedSum_mod sizes
  rw [bytesNeeded_eq hsizes (by decide), Nat.zero_add]
  change (roundedSum sizes % 2 ^ 64 + 255) % 2 ^ 64 = _
  omega

/-! ## 4. Blocks -/

/-- **The blocks are one behind the other**, from an aligned address on. -/
theorem blocks_inside (onDevice : Bool) (base : ℕ) : ∀ {sizes : List ℕ} (start : ℕ), (∀ s ∈ sizes, s < 2 ^ 64) →
    start + roundedSum sizes < 2 ^ 64 → base + start + roundedSum sizes ≤ 2 ^ 64 →
    (((allocationOffsets onDevice sizes start).1.map fun o => (base + o) % 2 ^ 64).zip sizes).Pairwise
        (fun a b => Disjoint (block a) (block b)) ∧
      ∀ b ∈ ((allocationOffsets onDevice sizes start).1.map fun o => (base + o) % 2 ^ 64).zip sizes,
        block b ⊆ Finset.Ico (base + start) (base + start + roundedSum sizes)
  | [], _, _, _, _ => ⟨List.Pairwise.nil, fun _ hb => absurd hb List.not_mem_nil⟩
  | size :: sizes, start, hsizes, hsum, hfit => by
    rw [roundedSum_cons] at hsum hfit ⊢
    have hround : size ≤ rounded size := by
      rw [rounded]
      omega
    have hnext : (start + roundUp onDevice size alignBytes) % 2 ^ 64 = start + rounded size := by
      rw [roundUp_eq (hsizes size List.mem_cons_self), Nat.add_mod_mod, Nat.mod_eq_of_lt (by omega)]
    obtain ⟨hpairwise, hinside⟩ := blocks_inside onDevice base (start + rounded size)
      (fun s hs => hsizes s (List.mem_cons_of_mem _ hs)) (by omega) (by omega)
    have hfirst : block ((base + start) % 2 ^ 64, size) ⊆ Finset.Ico (base + start) (base + start + rounded size) := by
      rcases Nat.eq_zero_or_pos size with rfl | hpos
      · rw [block, Nat.add_zero, Finset.Ico_self]
        exact Finset.empty_subset _
      · rw [block, Nat.mod_eq_of_lt (by omega)]
        exact Finset.Ico_subset_Ico le_rfl (by omega)
    rw [allocationOffsets, hnext, List.map_cons, List.zip_cons_cons]
    refine ⟨List.pairwise_cons.mpr ⟨fun b hb => ?_, hpairwise⟩, fun b hb => ?_⟩
    · refine Finset.disjoint_of_subset_left hfirst (Finset.disjoint_of_subset_right (hinside b hb) ?_)
      rw [← Nat.add_assoc]
      exact Finset.Ico_disjoint_Ico_consecutive _ _ _
    · rcases List.mem_cons.mp hb with rfl | hb
      · exact hfirst.trans (Finset.Ico_subset_Ico le_rfl (by omega))
      · exact (hinside b hb).trans (Finset.Ico_subset_Ico (by omega) (by omega))

/-- Blocks that are apart do not have more bytes than what they are in. -/
theorem sum_le_card : ∀ {blocks : List (ℕ × ℕ)} (bytes : Finset ℕ),
    blocks.Pairwise (fun a b => Disjoint (block a) (block b)) → (∀ b ∈ blocks, block b ⊆ bytes) →
      (blocks.map Prod.snd).sum ≤ bytes.card
  | [], _, _, _ => Nat.zero_le _
  | b :: blocks, bytes, hdisjoint, hinside => by
    obtain ⟨hfirst, hrest⟩ := List.pairwise_cons.mp hdisjoint
    have hb := hinside b List.mem_cons_self
    have hsum := sum_le_card (bytes \ block b) hrest fun c hc =>
      Finset.subset_sdiff.mpr ⟨hinside c (List.mem_cons_of_mem _ hc), (hfirst c hc).symm⟩
    have hcard : (block b).card = b.2 := by rw [block, Nat.card_Ico, Nat.add_sub_cancel_left]
    have hle := Finset.card_le_card hb
    rw [Finset.card_sdiff_of_subset hb, hcard] at hsum
    rw [List.map_cons, List.sum_cons]
    omega

theorem roundedSum_le : ∀ sizes : List ℕ, roundedSum sizes ≤ sizes.sum + 255 * sizes.length
  | [] => le_rfl
  | size :: sizes => by
    have := roundedSum_le sizes
    rw [roundedSum_cons, List.sum_cons, List.length_cons, rounded]
    omega

/-! ## 5. The layout -/

/-- **The layout is right** if and only if the sizes, rounded up, fit together. -/
theorem laysOut_iff (onDevice : Bool) (sizes : List ℕ) (hsizes : ∀ s ∈ sizes, s < 2 ^ 64) (hcount : sizes.length < 2 ^ 31) :
    LaysOut onDevice sizes ↔ roundedSum sizes < 2 ^ 64 := by
  have hasked := asked_eq onDevice hsizes
  have hmod := roundedSum_mod sizes
  constructor
  · intro hlays
    by_contra hlarge
    obtain ⟨-, -, hbuffers⟩ := hlays 0 []
    have hbytes : (aliasTemporaries onDevice 0 0 [] sizes).tempStorageBytes = roundedSum sizes % 2 ^ 64 + 255 := hasked
    obtain ⟨-, hlaid⟩ := (hbuffers 1 (roundedSum sizes % 2 ^ 64 + 255) (by decide) (by omega)).2 hbytes.le
    have hsum := sum_le_card _ hlaid.disjoint hlaid.inside
    have hround := roundedSum_le sizes
    rw [Nat.card_Ico, Nat.add_sub_cancel_left, List.map_snd_zip hlaid.length.ge] at hsum
    omega
  · intro hfits bytes₀ pointers
    rw [Nat.mod_eq_of_lt hfits] at hasked
    have hquery : aliasTemporaries onDevice 0 bytes₀ pointers sizes = ⟨.success, roundedSum sizes + 255, pointers⟩ := by
      rw [← hasked]
      rfl
    rw [hquery]
    refine ⟨rfl, rfl, fun buffer bytes hbuffer hend => ⟨fun hless => ?_, fun henough => ?_⟩⟩
    · unfold aliasTemporaries
      dsimp only
      rw [hasked, if_neg hbuffer.ne', if_pos hless]
    · change roundedSum sizes + 255 ≤ bytes at henough
      have hmapped : aliasTemporaries onDevice buffer bytes pointers sizes = ⟨.success, bytes,
          (allocationOffsets onDevice sizes 0).1.map fun o => (alignUp buffer alignBytes + o) % 2 ^ 64⟩ := by
        unfold aliasTemporaries
        dsimp only
        rw [hasked, if_neg hbuffer.ne', if_neg (Nat.not_lt.mpr henough)]
      rw [hmapped]
      have halign : alignUp buffer alignBytes = (buffer + 255) % 2 ^ 64 / 256 * 256 := rfl
      obtain ⟨hpairwise, hinside⟩ := blocks_inside onDevice (alignUp buffer alignBytes) 0
        hsizes (by omega) (by omega)
      refine ⟨rfl, ?_, fun p hp => ?_, hpairwise, fun b hb => (hinside b hb).trans ?_⟩
      · rw [List.length_map, length_offsets]
      · obtain ⟨o, ho, rfl⟩ := List.mem_map.mp hp
        have := offsets_aligned hsizes (by decide) o ho
        omega
      · rcases Nat.eq_zero_or_pos (roundedSum sizes) with hzero | hpos
        · rw [hzero, Nat.add_zero, Finset.Ico_self]
          exact Finset.empty_subset _
        · exact Finset.Ico_subset_Ico (by omega) (by omega)

/-- A block of a byte and an empty one. -/
theorem laysOut_small : LaysOut false [1, 0] :=
  (laysOut_iff false [1, 0] (by decide) (by decide)).mpr (by decide)

/-- The largest size: as little is asked for as for nothing, and then a call with that is accepted. -/
theorem largest_not_laidOut : ¬ LaysOut false [2 ^ 64 - 1] := by
  intro hlays
  obtain ⟨-, hlaid⟩ := ((hlays 0 []).2.2 256 255 (by decide) (by decide)).2 (by decide)
  have hsum := sum_le_card _ hlaid.disjoint hlaid.inside
  rw [Nat.card_Ico, List.map_snd_zip hlaid.length.ge] at hsum
  exact absurd hsum (by decide)

theorem getSize_eq {L : Layout} (hfresh : L.wasMapped = false) (hsizes : ∀ s ∈ L.slots.map Prod.fst, s < 2 ^ 64) :
    L.getSize onDevice = roundedSum (L.slots.map Prod.fst) % 2 ^ 64 + 255 := by
  have hbytes : (aliasTemporaries onDevice 0 0 (L.slots.map fun _ => 0) (L.slots.map Prod.fst)).tempStorageBytes =
      roundedSum (L.slots.map Prod.fst) % 2 ^ 64 + 255 := asked_eq onDevice hsizes
  have hnot : ¬ L.wasMapped = true := Bool.not_eq_true _ ▸ hfresh
  rw [Layout.getSize, Layout.prepareInterface, if_neg hnot]
  dsimp only
  rw [hbytes, if_neg (Nat.succ_ne_zero _)]

/-- **A layout maps its slots to blocks**, and never a second time. -/
theorem mapToBuffer_eq (onDevice : Bool) (L : Layout) (hfresh : L.wasMapped = false) {buffer bytes : ℕ}
    (hsizes : ∀ s ∈ L.slots.map Prod.fst, s < 2 ^ 64) (hbuffer : 0 < buffer) (henough : L.getSize onDevice ≤ bytes) :
    ∃ L', L.mapToBuffer onDevice buffer bytes = (.success, L') ∧
      L'.pointers = (aliasTemporaries onDevice buffer bytes [] (L.slots.map Prod.fst)).allocations ∧
      ∀ buffer' bytes', L'.mapToBuffer onDevice buffer' bytes' = (.errorAlreadyMapped, L') := by
  rw [getSize_eq hfresh hsizes, ← asked_eq onDevice hsizes] at henough
  have hmapped : ∀ pointers, aliasTemporaries onDevice buffer bytes pointers (L.slots.map Prod.fst) = ⟨.success, bytes,
      (allocationOffsets onDevice (L.slots.map Prod.fst) 0).1.map
        fun o => (alignUp buffer alignBytes + o) % 2 ^ 64⟩ := by
    intro pointers
    unfold aliasTemporaries
    dsimp only
    rw [if_neg hbuffer.ne', if_neg (Nat.not_lt.mpr henough)]
  have hresult : L.mapToBuffer onDevice buffer bytes = (.success, { L with
      slots := (L.slots.zip (aliasTemporaries onDevice buffer bytes [] (L.slots.map Prod.fst)).allocations).map
        fun p => (p.1.1, p.2)
      sizes := L.slots.map Prod.fst
      pointers := (aliasTemporaries onDevice buffer bytes [] (L.slots.map Prod.fst)).allocations
      wasMapped := true }) := by
    have hnot : ¬ L.wasMapped = true := Bool.not_eq_true _ ▸ hfresh
    rw [Layout.mapToBuffer, if_neg hnot, Layout.prepareInterface, if_neg hnot]
    dsimp only
    rw [hmapped, hmapped, if_pos rfl]
  exact ⟨_, hresult, rfl, fun _ _ => if_pos rfl⟩

end Cccl.Temporary
