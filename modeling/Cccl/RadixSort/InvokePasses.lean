/-
# The passes with two digit sizes sort

The third buffers are allocated when they are needed (`afterPasses_allocated`).  The loop then runs the passes
of the plan: the pass `m` begins at its bit and finds the selectors such that it reads the buffer that the
pass before it has written (`remainingPasses_spec`).
-/
import Cccl.RadixSort.Planned

namespace Cccl.RadixSort

open DigitSort StableSort

variable {K V : Type}

namespace DispatchImpl

variable {D : DispatchImpl K} {I : Input D V}

/-! ## 1. The buffers -/

section Allocate

variable {keysIndex valuesIndex keysCount valuesCount : ℕ} {mem : Memory K V}

@[simp] theorem allocate_keys_user (i : Fin 2) :
    (allocate keysIndex valuesIndex keysCount valuesCount mem).keys (.user i) = mem.keys (.user i) := by
  have hne : Buffer.user i ≠ .allocation keysIndex := by simp
  exact Function.update_of_ne hne (List.replicate keysCount none) mem.keys

@[simp] theorem allocate_values_user (i : Fin 2) :
    (allocate keysIndex valuesIndex keysCount valuesCount mem).values (.user i) =
      mem.values (.user i) := by
  have hne : Buffer.user i ≠ .allocation valuesIndex := by simp
  exact Function.update_of_ne hne (List.replicate valuesCount none) mem.values

@[simp] theorem allocate_keys_allocation :
    (allocate keysIndex valuesIndex keysCount valuesCount mem).keys (.allocation keysIndex) =
      List.replicate keysCount none := by
  unfold allocate
  exact Function.update_self _ _ _

@[simp] theorem allocate_values_allocation :
    (allocate keysIndex valuesIndex keysCount valuesCount mem).values (.allocation valuesIndex) =
      List.replicate valuesCount none := by
  unfold allocate
  exact Function.update_self _ _ _

end Allocate

/-- A location has room, if there is an allocation whenever it is needed. -/
theorem length_location {β : Type} {cells : Buffer → List β} {selector : Fin 2} {index n : ℕ}
    {numPasses m : ℕ} (hm : m ≤ numPasses) (hcurrent : (cells (.user selector)).length = n)
    (halternate : (cells (.user (selector + 1))).length = n)
    (hallocation : D.canOverwriteSourceBuffer = false → 1 < numPasses →
      (cells (.allocation index)).length = n) :
    (cells (D.location numPasses (.allocation index) ⟨.user, selector⟩ m)).length = n := by
  rcases location_cases D numPasses index selector m with
    h | h | ⟨h, hkeep, hone⟩
  · rw [h, hcurrent]
  · rw [h, halternate]
  · rw [h, hallocation hkeep (hone hm)]

/-- **The first pass can begin** when third buffers have been allocated. -/
theorem afterPasses_allocated (keysIndex valuesIndex keysCount valuesCount : ℕ) {plan : Plan}
    {numPasses : ℕ} (hplan : plan.Valid D numPasses I)
    (hkeys : ∀ m, plan.keys m =
      D.location numPasses (.allocation keysIndex) ⟨.user, I.keysSelector⟩ m)
    (hvalues : ∀ m, plan.values m =
      D.location numPasses (.allocation valuesIndex) ⟨.user, I.valuesSelector⟩ m)
    (hcount : D.canOverwriteSourceBuffer = false → 1 < numPasses → keysCount = D.numItems)
    (hvaluesCount : D.keysOnly = false → D.canOverwriteSourceBuffer = false → 1 < numPasses →
      valuesCount = D.numItems) :
    D.AfterPasses I plan numPasses 0 I.keys I.values
      (allocate keysIndex valuesIndex keysCount valuesCount I.mem) := by
  refine .zero hplan (by rw [allocate_keys_user, I.keys_current]) (fun hkeysOnly => ?_)
    (fun i hi => ?_) fun hkeysOnly i hi => ?_
  · rw [allocate_values_user, I.values_current hkeysOnly]
  · rw [hkeys i]
    refine length_location hi ?_ ?_ fun hkeep hone => ?_
    · rw [allocate_keys_user, I.keys_current, List.length_map, I.keys_length]
    · rw [allocate_keys_user, I.keys_alternate]
    · rw [allocate_keys_allocation, List.length_replicate, hcount hkeep hone]
  · rw [hvalues i]
    refine length_location hi ?_ ?_ fun hkeep hone => ?_
    · rw [allocate_values_user, I.values_current hkeysOnly, List.length_map, I.values_length hkeysOnly]
    · rw [allocate_values_user, I.values_alternate hkeysOnly]
    · rw [allocate_values_allocation, List.length_replicate, hvaluesCount hkeysOnly hkeep hone]

/-! ## 2. The loop -/

section Loop

variable {altBits maxAlt numPasses : ℕ} {plan : Plan}

theorem invokePass_spec (hcount : PassCount D.beginBit D.endBit altBits maxAlt numPasses)
    (hplan : plan.Valid D numPasses I)
    (hbit : ∀ m, plan.bit m = bitAfter D.beginBit D.endBit altBits maxAlt m) {m : ℕ}
    (hm : m < numPasses) {keys : List K} {values : List V} {mem : Memory K V}
    (h : D.AfterPasses I plan numPasses m keys values mem) :
    ∃ keys' values' mem', D.invokePass (if plan.bit m <
        min D.endBit (D.beginBit + maxAlt * altBits) then altBits else altBits + 1) (plan.keys m)
        (plan.keys (m + 1)) (plan.values m) (plan.values (m + 1))
        ⟨mem, plan.bit m, (List.range m).map plan.pass⟩ =
          some ⟨mem', plan.bit (m + 1), (List.range (m + 1)).map plan.pass⟩ ∧
      D.AfterPasses I plan numPasses (m + 1) keys' values' mem' := by
  have hbegin : D.beginBit ≤ plan.bit m := by
    rw [hbit]
    exact le_bitAfter _ _ _ hcount.begin_lt.le
  refine ⟨_, _, _, ?_, h.succ hplan hbegin⟩
  have hsucc : plan.bit m + min (if plan.bit m < min D.endBit (D.beginBit + maxAlt * altBits)
      then altBits else altBits + 1) (D.endBit - plan.bit m) = plan.bit (m + 1) := by
    rw [hbit, hbit, hcount.bitAfter_succ hm]
  have hpass : (⟨plan.bit m, min (if plan.bit m < min D.endBit (D.beginBit + maxAlt * altBits)
      then altBits else altBits + 1) (D.endBit - plan.bit m), plan.keys m, plan.keys (m + 1),
      plan.values m, plan.values (m + 1)⟩ : Pass) = plan.pass m := by
    rw [Plan.pass, ← hsucc, Nat.add_sub_cancel_left]
  unfold invokePass
  simp only [hsucc, hpass, sortKernels_eq (h.ready hplan hm), Option.map_some]
  rw [List.range_succ, List.map_append, List.map_singleton]

/-- **The loop runs the passes of the plan.** -/
theorem remainingPasses_spec (hcount : PassCount D.beginBit D.endBit altBits maxAlt numPasses)
    (hplan : plan.Valid D numPasses I)
    (hbit : ∀ m, plan.bit m = bitAfter D.beginBit D.endBit altBits maxAlt m)
    (keysBuffers valuesBuffers : Fin 2 → Buffer)
    (hkeys : ∀ m, plan.keys (m + 1) = keysBuffers (Fin.ofNat 2 m))
    (hvalues : ∀ m, plan.values (m + 1) = valuesBuffers (Fin.ofNat 2 m)) :
    ∀ (fuel m : ℕ), m < numPasses → numPasses - m ≤ fuel → ∀ {keys values mem} (i : Fin 2),
      D.AfterPasses I plan numPasses (m + 1) keys values mem →
      ∃ keys' values' mem', D.remainingPasses (altBits + 1) altBits
          (min D.endBit (D.beginBit + maxAlt * altBits)) fuel ⟨keysBuffers, Fin.ofNat 2 m⟩
          ⟨valuesBuffers, i⟩ ⟨mem, plan.bit (m + 1), (List.range (m + 1)).map plan.pass⟩ =
            some ⟨mem', D.endBit, (List.range numPasses).map plan.pass⟩ ∧
        D.AfterPasses I plan numPasses numPasses keys' values' mem'
  | 0, m, hm, hfuel, _, _, _, _, _ => by omega
  | fuel + 1, m, hm, hfuel, keys, values, mem, i, h => by
    have hselector : Fin.ofNat 2 m ^^^ 1 = Fin.ofNat 2 (m + 1) := by
      rw [xor_one]
      exact Fin.ext (by simp [Fin.val_add])
    rcases Nat.lt_or_ge (m + 1) numPasses with hlt | hge
    · have hbefore : plan.bit (m + 1) < D.endBit := by
        rw [hbit]
        exact (hcount.bitAfter_lt hlt).2
      obtain ⟨keys', values', mem', hpass, h'⟩ := invokePass_spec hcount hplan hbit hlt h
      rw [hkeys, hkeys, hvalues, hvalues] at hpass
      obtain ⟨keys'', values'', mem'', hrest, h''⟩ := remainingPasses_spec hcount hplan hbit
        keysBuffers valuesBuffers hkeys hvalues fuel (m + 1) hlt (by omega) (i ^^^ 1) h'
      refine ⟨keys'', values'', mem'', ?_, h''⟩
      unfold remainingPasses
      simp only [if_pos hbefore, hselector, hpass, Option.bind_some, hrest]
    · obtain rfl : m + 1 = numPasses := by omega
      have hlast : plan.bit (m + 1) = D.endBit := by rw [hbit, hcount.bitAfter_last]
      refine ⟨keys, values, mem, ?_, h⟩
      unfold remainingPasses
      simp only [hlast, if_neg (Nat.lt_irrefl _)]

end Loop

/-! ## 3. The dispatch -/

theorem passCount_ceilDiv {b e altBits : ℕ} (hbits : b < e) (halt : 0 < altBits) {maxAlt : ℕ}
    (hmax : maxAlt ≤ ceilDiv (e - b) (altBits + 1) * (altBits + 1) - (e - b)) :
    PassCount b e altBits maxAlt (ceilDiv (e - b) (altBits + 1)) := by
  obtain ⟨-, hneeded, henough⟩ := ceilDiv_spec (a := e - b) (b := altBits + 1) (by omega)
    (Nat.succ_pos _)
  exact ⟨hbits, halt, by omega, hneeded⟩

theorem invokePasses_sorts (I : Input D V) {altRadixBits : ℕ} (hbits : D.beginBit < D.endBit)
    (halt : 0 < altRadixBits) :
    ∃ outcome, D.invokePasses (altRadixBits + 1) altRadixBits ⟨.user, I.keysSelector⟩
        ⟨.user, I.valuesSelector⟩ I.mem = some outcome ∧
      D.SortsAsPlanned I (ceilDiv (D.endBit - D.beginBit) (altRadixBits + 1)) outcome := by
  obtain ⟨numPasses, hnum⟩ : ∃ n, ceilDiv (D.endBit - D.beginBit) (altRadixBits + 1) = n := ⟨_, rfl⟩
  obtain ⟨maxAlt, hmax⟩ : ∃ n, numPasses * (altRadixBits + 1) - (D.endBit - D.beginBit) = n :=
    ⟨_, rfl⟩
  have hcount : PassCount D.beginBit D.endBit altRadixBits maxAlt numPasses := by
    rw [← hnum] at hmax ⊢
    exact passCount_ceilDiv hbits halt hmax.ge
  have hplan := planOf_ascending 1 2 I hcount
  have hpos := hcount.pos
  have hfuel : numPasses ≤ D.endBit - D.beginBit := by
    have hneeded := hcount.needed
    have hle : numPasses - 1 ≤ (numPasses - 1) * (altRadixBits + 1) :=
      Nat.le_mul_of_pos_right _ (Nat.succ_pos altRadixBits)
    omega
  have h0 := afterPasses_allocated 1 2
    (if D.canOverwriteSourceBuffer then 0 else D.numItems)
    (if D.canOverwriteSourceBuffer || D.keysOnly then 0 else D.numItems)
    hplan.toValid (fun _ => rfl) (fun _ => rfl)
    (fun hkeep _ => by rw [hkeep, if_neg (by simp)])
    (fun hkeysOnly hkeep _ => by rw [hkeysOnly, hkeep, if_neg (by simp)])
  obtain ⟨keys1, values1, mem1, hfirst, h1⟩ :=
    invokePass_spec hcount hplan.toValid (fun _ => rfl) hpos h0
  obtain ⟨keys', values', mem', hrest, h'⟩ := remainingPasses_spec hcount hplan.toValid (fun _ => rfl)
    ((D.remainingBuffers (numPasses % 2 == 1) (.allocation 1)
      ⟨.user, I.keysSelector⟩).dBuffers)
    ((D.remainingBuffers (numPasses % 2 == 1) (.allocation 2)
      ⟨.user, I.valuesSelector⟩).dBuffers)
    (fun _ => rfl) (fun _ => rfl) (D.endBit - D.beginBit) 0 hpos (by omega) 0 h1
  have hzero : (D.planOf altRadixBits maxAlt numPasses 1 2 I.keysSelector I.valuesSelector).bit 0 =
      D.beginBit := hplan.bit_zero
  rw [hzero] at hfirst
  rw [hnum]
  refine ⟨⟨mem', ⟨.user, I.keysSelector + Fin.ofNat 2 (if D.canOverwriteSourceBuffer then numPasses
    else 1)⟩, ⟨.user, I.valuesSelector + Fin.ofNat 2 (if D.canOverwriteSourceBuffer then numPasses
    else 1)⟩, _⟩, ?_, hplan.sortsAsPlanned h' rfl hplan.keys_last.symm hplan.values_last.symm⟩
  unfold invokePasses
  simp only [hnum, hmax, Option.bind_eq_bind]
  refine (congrArg (Option.bind · _) hfirst).trans ?_
  exact congrArg (Option.bind · _) hrest

end DispatchImpl

end Cccl.RadixSort
