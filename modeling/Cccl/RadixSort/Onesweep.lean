/-
# Onesweep sorts

The double buffers are re-seated after the first pass such that each pass finds the buffers of the plan
(`Seated.next`): from then on they are two buffers in turn, which is what the plan has.  So the loop runs the
passes of the plan (`onesweepPasses_spec`).  Both ways to run the passes hence sort as it is planned
(`dispatch_sorts`).
-/
import Cccl.RadixSort.Portions

namespace Cccl.RadixSort

open DigitSort StableSort

variable {K V : Type}

namespace DispatchImpl

variable {D : DispatchImpl K} {I : Input D V}

/-! ## 1. The double buffers -/

/-- The double buffer has the buffers of the pass `m`. -/
structure Seated (D : DispatchImpl K) (numPasses index : ℕ) (selector : Fin 2) (m : ℕ)
    (b : DoubleBuffer) : Prop where
  current : b.current = D.location numPasses (.allocation index) ⟨.user, selector⟩ m
  alternate : b.alternate = D.location numPasses (.allocation index) ⟨.user, selector⟩ (m + 1)

theorem toggle_current (b : DoubleBuffer) :
    ({ b with selector := b.selector ^^^ 1 } : DoubleBuffer).current = b.alternate := rfl

theorem toggle_alternate (b : DoubleBuffer) :
    ({ b with selector := b.selector ^^^ 1 } : DoubleBuffer).alternate = b.current := by
  have htwice : b.selector ^^^ 1 ^^^ 1 = b.selector := by
    have hall : ∀ i : Fin 2, i + 1 + 1 = i := by decide
    rw [xor_one, xor_one, hall]
  simp only [DoubleBuffer.alternate, DoubleBuffer.current, htwice]

variable {numPasses index : ℕ} {selector : Fin 2}

/-- The locations are in turn, from the first pass on or from the second one on. -/
theorem location_add_two (m : ℕ) (h : D.canOverwriteSourceBuffer = true ∨ 0 < m) :
    D.location numPasses (.allocation index) ⟨.user, selector⟩ (m + 2) =
      D.location numPasses (.allocation index) ⟨.user, selector⟩ m := by
  rcases Nat.eq_zero_or_pos m with rfl | hpos
  · have hoverwrite := h.resolve_right (Nat.lt_irrefl 0)
    rw [location_odd _ _ rfl, if_pos hoverwrite]
    rfl
  · obtain ⟨k, rfl⟩ := Nat.exists_eq_add_one.mpr hpos
    have hfin : Fin.ofNat 2 (k + 1 + 1) = Fin.ofNat 2 k := Fin.ext (Nat.add_mod_right k 2)
    rw [location, location, hfin]

/-- **The next pass finds its buffers.** -/
theorem Seated.next {m : ℕ} {b : DoubleBuffer} (h : D.Seated numPasses index selector m b) :
    D.Seated numPasses index selector (m + 1)
      { D.reseat numPasses m (DoubleBuffer.mk .user selector).alternate (.allocation index) b with
        selector := (D.reseat numPasses m (DoubleBuffer.mk .user selector).alternate
          (.allocation index) b).selector ^^^ 1 } := by
  rcases Classical.em (D.canOverwriteSourceBuffer = false ∧ m = 0) with ⟨hkeep, rfl⟩ | hturn
  · have hodd : numPasses % 2 = 0 ∨ numPasses % 2 = 1 := Nat.mod_two_eq_zero_or_one _
    rcases hodd with heven | hodd
    · have hreseat : D.reseat numPasses 0 (DoubleBuffer.mk .user selector).alternate
          (.allocation index) b =
            .ofBuffers (DoubleBuffer.mk .user selector).alternate (.allocation index) := by
        rw [reseat, if_pos ⟨hkeep, rfl⟩, if_pos heven]
      rw [hreseat]
      refine ⟨?_, ?_⟩
      · rw [toggle_current, location_even _ _ rfl, hkeep, heven]
        rfl
      · rw [toggle_alternate, location_odd _ _ rfl, hkeep, heven]
        rfl
    · have hreseat : D.reseat numPasses 0 (DoubleBuffer.mk .user selector).alternate
          (.allocation index) b =
            .ofBuffers (.allocation index) (DoubleBuffer.mk .user selector).alternate := by
        rw [reseat, if_pos ⟨hkeep, rfl⟩, if_neg (by omega)]
      rw [hreseat]
      refine ⟨?_, ?_⟩
      · rw [toggle_current, location_even _ _ rfl, hkeep, hodd]
        rfl
      · rw [toggle_alternate, location_odd _ _ rfl, hkeep, hodd]
        rfl
  · rw [reseat, if_neg hturn]
    refine ⟨by rw [toggle_current, h.alternate], ?_⟩
    rw [toggle_alternate, h.current, location_add_two]
    rcases Nat.eq_zero_or_pos m with hzero | hpos
    · exact Or.inl (by simpa [hzero] using hturn)
    · exact Or.inr hpos

theorem Seated.zero (hselector : D.canOverwriteSourceBuffer = false → selector = 0) :
    D.Seated numPasses index selector 0
      (if D.canOverwriteSourceBuffer = false ∧ numPasses % 2 = 0 then
        { dBuffers := Function.update Buffer.user 1 (.allocation index), selector := selector }
      else ⟨.user, selector⟩) := by
  cases hkeep : D.canOverwriteSourceBuffer with
  | true =>
    rw [if_neg (by simp)]
    refine ⟨rfl, ?_⟩
    rw [location_even _ _ rfl, hkeep]
    rfl
  | false =>
    obtain rfl := hselector hkeep
    rcases Nat.mod_two_eq_zero_or_one numPasses with heven | hodd
    · rw [if_pos ⟨rfl, heven⟩]
      refine ⟨rfl, ?_⟩
      rw [location_even _ _ rfl, hkeep, heven]
      rfl
    · rw [if_neg (by omega)]
      refine ⟨rfl, ?_⟩
      rw [location_even _ _ rfl, hkeep, hodd]
      rfl

/-! ## 2. The loop -/

/-- **The loop runs the passes of the plan.** -/
theorem onesweepPasses_spec {policy : OnesweepPolicy} {altBits : ℕ}
    (hradix : policy.radixBits = altBits + 1) (hitems : 0 < D.numItems)
    (hcount : PassCount D.beginBit D.endBit altBits 0 numPasses) :
    ∀ (fuel m : ℕ), m ≤ numPasses → numPasses - m < fuel → ∀ {dKeys dValues keys values mem dBins},
      D.Seated numPasses 2 I.keysSelector m dKeys → D.Seated numPasses 3 I.valuesSelector m dValues →
      D.AfterPasses I (D.planOf altBits 0 numPasses 2 3 I.keysSelector I.valuesSelector) numPasses m
        keys values mem →
      (∀ q < numPasses * 2 ^ policy.radixBits, dBins[q]? = (D.initialBins policy numPasses
        (ceilDiv D.numItems policy.portionSize) I.keys)[q]?) →
      dBins.length = ceilDiv D.numItems policy.portionSize * numPasses * 2 ^ policy.radixBits →
      ∃ dKeys' dValues' keys' values' mem',
        D.onesweepPasses policy numPasses (ceilDiv D.numItems policy.portionSize)
          (DoubleBuffer.mk .user I.keysSelector).alternate (.allocation 2)
          (DoubleBuffer.mk .user I.valuesSelector).alternate (.allocation 3) fuel
          (D.beginBit + m * policy.radixBits) m dKeys dValues (mem, dBins)
          ((List.range m).map
            (D.planOf altBits 0 numPasses 2 3 I.keysSelector I.valuesSelector).pass) =
          some ⟨mem', dKeys', dValues', (List.range numPasses).map
            (D.planOf altBits 0 numPasses 2 3 I.keysSelector I.valuesSelector).pass⟩ ∧
        D.Seated numPasses 2 I.keysSelector numPasses dKeys' ∧
        D.Seated numPasses 3 I.valuesSelector numPasses dValues' ∧
        D.AfterPasses I (D.planOf altBits 0 numPasses 2 3 I.keysSelector I.valuesSelector) numPasses
          numPasses keys' values' mem'
  | 0, m, hm, hfuel, _, _, _, _, _, _, _, _, _, _, _ => by omega
  | fuel + 1, m, hm, hfuel, dKeys, dValues, keys, values, mem, dBins, hkeys, hvalues, h, hbins,
      hlen => by
    have hplan := planOf_ascending 2 3 I hcount
    unfold onesweepPasses
    rcases Nat.lt_or_ge m numPasses with hlt | hge
    · obtain ⟨hbit, hend⟩ := hcount.bitAfter_lt hlt
      have hsucc := hcount.bitAfter_succ hlt
      rw [if_neg (by rw [hbit, Nat.zero_mul]; omega), ← hradix] at hsucc
      have hhere : D.beginBit + m * policy.radixBits =
          bitAfter D.beginBit D.endBit altBits 0 m := by
        rw [hbit, hradix, Nat.mul_add_one]
        omega
      obtain ⟨plan, hplanEq⟩ : ∃ plan, plan =
        D.planOf altBits 0 numPasses 2 3 I.keysSelector I.valuesSelector := ⟨_, rfl⟩
      have hbitEq : ∀ m, plan.bit m = bitAfter D.beginBit D.endBit altBits 0 m := fun m => by
        rw [hplanEq]
        rfl
      rw [← hplanEq] at h hplan ⊢
      -- the pass is that of the plan
      have hpass : (⟨plan.bit m, min (D.endBit - plan.bit m) policy.radixBits, dKeys.current,
          dKeys.alternate, dValues.current, dValues.alternate⟩ : Pass) = plan.pass m := by
        have hbits : min (D.endBit - plan.bit m) policy.radixBits = plan.bit (m + 1) - plan.bit m := by
          rw [hbitEq, hbitEq, ← hsucc, Nat.add_sub_cancel_left, Nat.min_comm]
        rw [Plan.pass, hbits, hkeys.current, hkeys.alternate, hvalues.current, hvalues.alternate,
          hplanEq]
        rfl
      have hcurrent : (plan.pass m).currentBit = D.beginBit + m * policy.radixBits := by
        rw [hhere, ← hbitEq]
        rfl
      have hpassBits : (plan.pass m).passBits =
          min (D.endBit - (plan.pass m).currentBit) policy.radixBits := by rw [← hpass]
      have hrow : HasBins (2 ^ policy.radixBits) (m * 2 ^ policy.radixBits)
          (binStart Prod.fst (D.keyed (plan.pass m) keys)) dBins := by
        intro d hd
        have hin : m * 2 ^ policy.radixBits + d < numPasses * 2 ^ policy.radixBits := by
          have hmul := Nat.mul_le_mul_right (2 ^ policy.radixBits) (Nat.succ_le_of_lt hlt)
          rw [Nat.succ_mul] at hmul
          omega
        rw [hbins _ hin]
        exact initialBins_spec D policy _ hlt h.keysSorted.perm hcurrent hpassBits d hd
      obtain ⟨dBins', hportions, hlen', hfirst⟩ := portions_spec (h.ready hplan.toValid hlt) hitems hlt
        (by rw [hpassBits]; exact Nat.min_le_right _ _) hrow hlen
      have hbegin : D.beginBit ≤ plan.bit m := by
        rw [hbitEq]
        exact le_bitAfter _ _ _ hcount.begin_lt.le
      have h' := h.succ hplan.toValid hbegin
      rw [hplanEq] at h'
      obtain ⟨dKeys', dValues', keys', values', mem', hrest, hresult⟩ := onesweepPasses_spec hradix
        hitems hcount fuel (m + 1) hlt (by omega) hkeys.next hvalues.next h'
        (fun q hq => by rw [hfirst q hq, hbins q hq]) (by rw [hlen', hlen])
      refine ⟨dKeys', dValues', keys', values', mem', ?_, hplanEq ▸ hresult⟩
      rw [← hplanEq, Nat.succ_mul, ← Nat.add_assoc, List.range_succ, List.map_append,
        List.map_singleton] at hrest
      rw [hhere, ← hbitEq, if_pos (by rw [hbitEq]; exact hend)]
      simp only [hpass, hportions, Option.bind_eq_bind, Option.bind_some]
      rw [hhere, ← hbitEq] at hrest
      exact hrest
    · obtain rfl : m = numPasses := by omega
      have hdone : ¬ D.beginBit + m * policy.radixBits < D.endBit := by
        have henough := hcount.enough
        rw [← hradix] at henough
        omega
      rw [if_neg hdone]
      exact ⟨dKeys, dValues, keys, values, mem, rfl, hkeys, hvalues, h⟩

/-! ## 3. The dispatch -/

theorem invokeOnesweep_sorts (I : Input D V) {policy : OnesweepPolicy} {altBits : ℕ}
    (hradix : policy.radixBits = altBits + 1) (halt : 0 < altBits) (hbits : D.beginBit < D.endBit)
    (hitems : 0 < D.numItems) (hselectors : D.canOverwriteSourceBuffer = false →
      I.keysSelector = 0 ∧ I.valuesSelector = 0) :
    ∃ outcome, D.invokeOnesweep policy ⟨.user, I.keysSelector⟩ ⟨.user, I.valuesSelector⟩ I.mem =
        some outcome ∧
      D.SortsAsPlanned I (ceilDiv (D.endBit - D.beginBit) policy.radixBits) outcome := by
  obtain ⟨numPasses, hnum⟩ : ∃ n, ceilDiv (D.endBit - D.beginBit) policy.radixBits = n := ⟨_, rfl⟩
  have hcount : PassCount D.beginBit D.endBit altBits 0 numPasses := by
    rw [← hnum, hradix]
    exact passCount_ceilDiv hbits halt (Nat.zero_le _)
  have hplan := planOf_ascending 2 3 I hcount
  have hfuel : numPasses ≤ D.endBit - D.beginBit := by
    have hneeded := hcount.needed
    have hle : numPasses - 1 ≤ (numPasses - 1) * (altBits + 1) :=
      Nat.le_mul_of_pos_right _ (Nat.succ_pos altBits)
    omega
  obtain ⟨tmpCount, htmp⟩ : ∃ n, (if D.canOverwriteSourceBuffer = true ∨ numPasses ≤ 1 then 0
    else D.numItems) = n := ⟨_, rfl⟩
  have htmpCount : D.canOverwriteSourceBuffer = false → 1 < numPasses → tmpCount = D.numItems :=
    fun hkeep hone => by
      rw [← htmp, if_neg]
      rintro (hoverwrite | hle)
      · exact Bool.false_ne_true (hkeep.symm.trans hoverwrite)
      · omega
  have h0 := afterPasses_allocated 2 3 tmpCount (if D.keysOnly then 0 else tmpCount) hplan.toValid
    (fun _ => rfl) (fun _ => rfl) htmpCount fun hkeysOnly hkeep hone => by
      rw [hkeysOnly, if_neg Bool.false_ne_true, htmpCount hkeep hone]
  have hread : readItems ((allocate 2 3 tmpCount (if D.keysOnly then 0 else tmpCount) I.mem).keys
      (DoubleBuffer.mk .user I.keysSelector).current) 0 D.numItems = some I.keys := by
    rw [DoubleBuffer.current, allocate_keys_user, I.keys_current, readItems_all I.keys_length]
  have hportions := (ceilDiv_spec hitems policy.portionSize_pos).1
  obtain ⟨dKeys, dValues, keys, values, mem, hrun, hkeys, hvalues, h⟩ := onesweepPasses_spec hradix
    hitems hcount (D.endBit - D.beginBit + 1) 0 (Nat.zero_le _) (by omega)
    (Seated.zero fun hkeep => (hselectors hkeep).1) (Seated.zero fun hkeep => (hselectors hkeep).2)
    h0 (fun _ _ => rfl) (length_initialBins D policy hportions I.keys)
  rw [hnum]
  refine ⟨⟨mem, dKeys, dValues, _⟩, ?_, hplan.sortsAsPlanned h rfl hkeys.current hvalues.current⟩
  unfold invokeOnesweep
  simp only [hnum, htmp, hread, Option.bind_eq_bind, Option.bind_some]
  rw [Nat.zero_mul, Nat.add_zero] at hrun
  exact hrun

/-- **The passes sort as it is planned,** with two digit sizes and with onesweep. -/
theorem dispatch_sorts (D : DispatchImpl K) (I : Input D V) (hitems : 0 < D.numItems)
    (hbits : D.beginBit < D.endBit) :
    (∀ radixBits, 2 ≤ radixBits → ∃ outcome,
      D.invokePasses radixBits (radixBits - 1) ⟨.user, I.keysSelector⟩ ⟨.user, I.valuesSelector⟩
        I.mem = some outcome ∧
      D.SortsAsPlanned I (ceilDiv (D.endBit - D.beginBit) radixBits) outcome) ∧
    ∀ policy : OnesweepPolicy, 2 ≤ policy.radixBits →
      (D.canOverwriteSourceBuffer = false → I.keysSelector = 0 ∧ I.valuesSelector = 0) →
      ∃ outcome, D.invokeOnesweep policy ⟨.user, I.keysSelector⟩ ⟨.user, I.valuesSelector⟩ I.mem =
          some outcome ∧
        D.SortsAsPlanned I (ceilDiv (D.endBit - D.beginBit) policy.radixBits) outcome := by
  refine ⟨fun radixBits hradix => ?_, fun policy hradix hselectors => ?_⟩
  · obtain ⟨altBits, rfl⟩ : ∃ n, radixBits = n + 1 := ⟨radixBits - 1, by omega⟩
    rw [Nat.add_sub_cancel]
    exact invokePasses_sorts I hbits (by omega)
  · obtain ⟨altBits, haltBits⟩ : ∃ n, policy.radixBits = n + 1 := ⟨policy.radixBits - 1, by omega⟩
    exact invokeOnesweep_sorts I haltBits (by omega) hbits hitems hselectors

/-- Three keys of four bits, of which the lowest one is not compared.  The input is kept. -/
theorem dispatch_sorts_three :
    let D : DispatchImpl ℕ := ⟨id, 3, 1, 4, false, false⟩
    let I : Input D ℕ :=
      { mem := ⟨fun b => if b = .user 0 then [some 9, some 4, some 8] else List.replicate 3 none,
          fun b => if b = .user 0 then [some 0, some 1, some 2] else List.replicate 3 none⟩
        keysSelector := 0, valuesSelector := 0, keys := [9, 4, 8], values := [0, 1, 2]
        keys_length := rfl, keys_current := rfl, keys_alternate := rfl
        values_length := fun _ => rfl, values_current := fun _ => rfl
        values_alternate := fun _ => rfl }
    ((∀ radixBits, 2 ≤ radixBits → ∃ outcome,
      D.invokePasses radixBits (radixBits - 1) ⟨.user, 0⟩ ⟨.user, 0⟩ I.mem = some outcome ∧
      D.SortsAsPlanned I (ceilDiv 3 radixBits) outcome) ∧
    ∀ policy : OnesweepPolicy, 2 ≤ policy.radixBits →
      (false = false → (0 : Fin 2) = 0 ∧ (0 : Fin 2) = 0) →
      ∃ outcome, D.invokeOnesweep policy ⟨.user, 0⟩ ⟨.user, 0⟩ I.mem = some outcome ∧
        D.SortsAsPlanned I (ceilDiv 3 policy.radixBits) outcome) :=
  dispatch_sorts ⟨id, 3, 1, 4, false, false⟩ _ (by decide) (by decide)

end DispatchImpl

end Cccl.RadixSort
