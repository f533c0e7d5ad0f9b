/-
# What a plan of passes promises

If the passes of a plan take all bits (`Plan.Ascending`) and are carried out, then each bit has been sorted by
once, the least significant ones first, and the buffer that is selected at the end has the sorted items
(`Plan.Ascending.sortsAsPlanned`).  The plans of both dispatches are of this kind (`planOf_ascending`).
-/
import Cccl.RadixSort.PassChain

namespace Cccl.RadixSort

open DigitSort StableSort

variable {K V : Type}

namespace DispatchImpl

variable {D : DispatchImpl K} {I : Input D V} {plan : Plan} {numPasses m : ℕ}

/-- The passes of the plan take all bits. -/
structure Plan.Ascending (D : DispatchImpl K) (plan : Plan) (numPasses : ℕ) (I : Input D V) : Prop
    extends plan.Valid D numPasses I where
  bit_last : plan.bit numPasses = D.endBit
  bit_lt : ∀ m < numPasses, plan.bit m < plan.bit (m + 1)
  keys_last : plan.keys numPasses = .user (I.keysSelector +
    Fin.ofNat 2 (if D.canOverwriteSourceBuffer then numPasses else 1))
  values_last : plan.values numPasses = .user (I.valuesSelector +
    Fin.ofNat 2 (if D.canOverwriteSourceBuffer then numPasses else 1))

theorem Plan.Valid.bit_mono (h : plan.Valid D numPasses I) {i : ℕ} : ∀ {j : ℕ}, i ≤ j →
    plan.bit i ≤ plan.bit j
  | 0, hij => by
    obtain rfl : i = 0 := by omega
    exact Nat.le_refl _
  | j + 1, hij => by
    rcases Nat.lt_or_ge j i with hlt | hge
    · obtain rfl : i = j + 1 := by omega
      exact Nat.le_refl _
    · exact (Plan.Valid.bit_mono h hge).trans (h.bit_le j)

/-- **The passes have sorted** as it had been planned. -/
structure SortsAsPlanned (D : DispatchImpl K) (I : Input D V) (numPasses : ℕ) (outcome : Outcome K V) :
    Prop where
  /-- There are as many passes as it is assumed for the buffers. -/
  passes_length : outcome.passes.length = numPasses
  /-- Each bit is covered once. -/
  bits_once : ∀ bit, D.beginBit ≤ bit → bit < D.endBit →
    (outcome.passes.filter fun p => p.currentBit ≤ bit ∧ bit < p.currentBit + p.passBits).length = 1
  bits_within : ∀ p ∈ outcome.passes, 0 < p.passBits ∧ D.beginBit ≤ p.currentBit ∧
    p.currentBit + p.passBits ≤ D.endBit
  /-- Less significant bits come first. -/
  bits_ascending : outcome.passes.Pairwise fun p q => p.currentBit + p.passBits ≤ q.currentBit
  buffers_ne : ∀ p ∈ outcome.passes, p.keysIn ≠ p.keysOut ∧ p.valuesIn ≠ p.valuesOut
  sorted : ∃ keys, outcome.mem.keys outcome.dKeys.current = keys.map some ∧
    IsStableSort (D.bitsBelow D.endBit) I.keys keys ∧
    (D.keysOnly = false → ∃ values, outcome.mem.values outcome.dValues.current = values.map some ∧
      values.length = keys.length ∧
      IsStableSort (D.itemBitsBelow V D.endBit) (I.keys.zip I.values) (keys.zip values))
  /-- The input is not written if it must be kept; then the alternate buffers are sorted. -/
  kept : D.canOverwriteSourceBuffer = false →
    outcome.dKeys.current = .user (I.keysSelector + 1) ∧
    outcome.dValues.current = .user (I.valuesSelector + 1) ∧
    (∀ p ∈ outcome.passes, p.keysOut ≠ .user I.keysSelector ∧
      p.valuesOut ≠ .user I.valuesSelector) ∧
    outcome.mem.keys (.user I.keysSelector) = I.keys.map some ∧
    (D.keysOnly = false → outcome.mem.values (.user I.valuesSelector) = I.values.map some)

theorem countP_between {bit : ℕ → ℕ} (hle : ∀ m, bit m ≤ bit (m + 1)) (i : ℕ) : ∀ n,
    bit 0 ≤ bit n ∧ (List.range n).countP (fun m => bit m ≤ i ∧ i < bit (m + 1)) =
      if bit 0 ≤ i ∧ i < bit n then 1 else 0
  | 0 => by
    refine ⟨Nat.le_refl _, ?_⟩
    rw [List.range_zero, List.countP_nil, if_neg (by omega)]
  | n + 1 => by
    obtain ⟨hzero, hcount⟩ := countP_between hle i n
    have hstep := hle n
    refine ⟨hzero.trans hstep, ?_⟩
    rw [List.range_succ, List.countP_append, hcount, List.countP_singleton]
    simp only [decide_eq_true_eq]
    split_ifs
    all_goals omega

/-- **A plan that is carried out sorts.** -/
theorem Plan.Ascending.sortsAsPlanned (hplan : plan.Ascending D numPasses I) {keys : List K}
    {values : List V} {outcome : Outcome K V}
    (h : D.AfterPasses I plan numPasses numPasses keys values outcome.mem)
    (hpasses : outcome.passes = (List.range numPasses).map plan.pass)
    (hkeys : outcome.dKeys.current = plan.keys numPasses)
    (hvalues : outcome.dValues.current = plan.values numPasses) :
    D.SortsAsPlanned I numPasses outcome := by
  have hmono := fun {i j : ℕ} => hplan.toValid.bit_mono (i := i) (j := j)
  have hend : ∀ m, (plan.pass m).currentBit + (plan.pass m).passBits = plan.bit (m + 1) := fun m =>
    Nat.add_sub_of_le (hplan.bit_le m)
  have hmem : ∀ p ∈ outcome.passes, ∃ m < numPasses, p = plan.pass m := by
    intro p hp
    rw [hpasses] at hp
    obtain ⟨m, hm, rfl⟩ := List.mem_map.mp hp
    exact ⟨m, List.mem_range.mp hm, rfl⟩
  refine ⟨by rw [hpasses, List.length_map, List.length_range], fun bit hbegin hbit => ?_, fun p hp => ?_,
    ?_, fun p hp => ?_, ?_, fun hkeep => ⟨?_, ?_, fun p hp => ?_, (h.kept hkeep).1, (h.kept hkeep).2⟩⟩
  · rw [hpasses, ← List.countP_eq_length_filter, List.countP_map]
    have hcount := (countP_between hplan.bit_le bit numPasses).2
    rw [hplan.bit_zero, hplan.bit_last, if_pos ⟨hbegin, hbit⟩] at hcount
    rw [← hcount]
    refine List.countP_congr fun m _ => ?_
    rw [Function.comp_apply, hend]
    rfl
  · obtain ⟨m, hm, rfl⟩ := hmem p hp
    have hfirst := hmono (Nat.zero_le m)
    have hlast := hmono (Nat.succ_le_of_lt hm)
    rw [hplan.bit_zero] at hfirst
    rw [hplan.bit_last] at hlast
    refine ⟨Nat.sub_pos_of_lt (hplan.bit_lt m hm), hfirst, ?_⟩
    rw [hend]
    exact hlast
  · rw [hpasses, List.pairwise_map]
    refine List.pairwise_lt_range.imp fun {i j} hij => ?_
    rw [hend]
    exact hmono hij
  · obtain ⟨m, hm, rfl⟩ := hmem p hp
    exact ⟨hplan.keys_ne m, hplan.values_ne m⟩
  · refine ⟨keys, ?_, ?_, fun hkeysOnly => ⟨values, ?_, (h.itemsSorted hkeysOnly).1, ?_⟩⟩
    · rw [hkeys, h.keysAt]
    · rw [← hplan.bit_last]
      exact h.keysSorted
    · rw [hvalues, h.valuesAt hkeysOnly]
    · rw [← hplan.bit_last]
      exact (h.itemsSorted hkeysOnly).2
  · rw [hkeys, hplan.keys_last, hkeep]
    rfl
  · rw [hvalues, hplan.values_last, hkeep]
    rfl
  · obtain ⟨m, hm, rfl⟩ := hmem p hp
    exact hplan.keep hkeep m

/-- The plan: bits as `bitAfter` has them, and the two buffers with an allocation. -/
def planOf (D : DispatchImpl K) (altBits maxAlt numPasses keysIndex valuesIndex : ℕ)
    (keysSelector valuesSelector : Fin 2) : Plan where
  bit := bitAfter D.beginBit D.endBit altBits maxAlt
  keys := D.location numPasses (.allocation keysIndex) ⟨.user, keysSelector⟩
  values := D.location numPasses (.allocation valuesIndex) ⟨.user, valuesSelector⟩

theorem planOf_ascending {altBits maxAlt : ℕ} (keysIndex valuesIndex : ℕ) (I : Input D V)
    (h : PassCount D.beginBit D.endBit altBits maxAlt numPasses) :
    (D.planOf altBits maxAlt numPasses keysIndex valuesIndex I.keysSelector
      I.valuesSelector).Ascending D numPasses I where
  bit_zero := h.bitAfter_zero
  bit_le m := bitAfter_mono _ _ _ _ (Nat.le_succ m)
  keys_zero := rfl
  values_zero := rfl
  keys_ne := location_ne
  values_ne := location_ne
  keep hkeep m := ⟨location_ne_input hkeep m, location_ne_input hkeep m⟩
  bit_last := h.bitAfter_last
  bit_lt _ hm := h.bitAfter_lt_succ hm
  keys_last := location_last h.pos
  values_last := location_last h.pos

end DispatchImpl

end Cccl.RadixSort
