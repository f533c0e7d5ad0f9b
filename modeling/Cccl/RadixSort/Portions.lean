/-
# The portions of a onesweep pass

The portions of a pass write one after the other what a single scatter of all items writes
(`PortionInv.next`): the bins of a portion are the bins of the first one with what the portions before
have counted.  The bins of the first portion are the exclusive sums of a histogram of the input, which is
that of any permutation of it, so that they are right for all passes.  Hence a pass leaves the stable
partition (`portions_spec`).
-/
import Cccl.Lib.Chunks
import Cccl.RadixSort.InvokePasses

namespace Cccl.RadixSort

open Chunks DigitSort

variable {α K V : Type}

namespace DispatchImpl

/-! ## 1. Bins -/

/-- Some bins are in memory. -/
def HasBins (radixDigits offset : ℕ) (bins : ℕ → ℕ) (dBins : List (Option ℕ)) : Prop :=
  ∀ d < radixDigits, dBins[offset + d]? = some (some (bins d))

theorem HasBins.read {radixDigits offset : ℕ} {bins : ℕ → ℕ} {dBins : List (Option ℕ)}
    (hpos : 0 < radixDigits) (h : HasBins radixDigits offset bins dBins) :
    ∃ f, readBins radixDigits offset dBins = some f ∧ ∀ d < radixDigits, f d = bins d := by
  have hlen : offset + radixDigits ≤ dBins.length := by
    have hlast := h (radixDigits - 1) (by omega)
    have := (List.getElem?_eq_some_iff.mp hlast).1
    omega
  have hcells : (dBins.drop offset).take radixDigits =
      ((List.range radixDigits).map bins).map some := by
    refine List.ext_getElem? fun d => ?_
    rw [List.getElem?_take, List.getElem?_drop, List.getElem?_map, List.getElem?_map]
    rcases Nat.lt_or_ge d radixDigits with hlt | hge
    · rw [if_pos hlt, h d hlt, List.getElem?_range hlt]
      rfl
    · rw [if_neg (by omega), List.getElem?_eq_none (by rw [List.length_range]; exact hge)]
      rfl
  refine ⟨fun d => ((List.range radixDigits).map bins).getD d 0, ?_, fun d hd => ?_⟩
  · rw [readBins, readItems, if_pos hlen, hcells, loaded_map_some, Option.map_some]
  · simp only [List.getD_eq_getElem?_getD, List.getElem?_map, List.getElem?_range hd, Option.map_some,
      Option.getD_some]

theorem writeBins_spec {radixDigits offset : ℕ} (bins : ℕ → ℕ) {dBins : List (Option ℕ)}
    (h : offset + radixDigits ≤ dBins.length) :
    ∃ dBins', writeBins radixDigits offset bins dBins = some dBins' ∧
      dBins'.length = dBins.length ∧ HasBins radixDigits offset bins dBins' ∧
      ∀ q < offset, dBins'[q]? = dBins[q]? := by
  have hleft : (dBins.take offset).length = offset := by
    rw [List.length_take, Nat.min_eq_left (by omega)]
  refine ⟨_, if_pos h, ?_, fun d hd => ?_, fun q hq => ?_⟩
  · simp only [List.length_append, List.length_map, List.length_range, List.length_drop, hleft]
    omega
  · rw [List.getElem?_append_left, List.getElem?_append_right (by omega), hleft,
      Nat.add_sub_cancel_left, List.getElem?_map, List.getElem?_range hd]
    · rfl
    · rw [List.length_append, hleft, List.length_map, List.length_range]
      omega
  · rw [List.append_assoc, List.getElem?_append_left (by omega), List.getElem?_take, if_pos hq]

/-! ## 2. Portions of a scatter -/

theorem scatter_congr (digits : ℕ) : ∀ (l : List (ℕ × α)) {bins bins' : ℕ → ℕ} (out : List (Option α)),
    (∀ a ∈ l, a.1 < digits) → (∀ d < digits, bins d = bins' d) →
    scatter l bins out = scatter l bins' out
  | [], _, _, _, _, _ => rfl
  | (d, a) :: l, bins, bins', out, hl, h => by
    have hd : bins d = bins' d := h d (hl (d, a) List.mem_cons_self)
    rw [scatter, scatter, hd]
    split
    · refine scatter_congr digits l _ (fun b hb => hl b (List.mem_cons_of_mem _ hb)) fun e he => ?_
      rcases Classical.em (e = d) with rfl | hne
      · rw [Function.update_self, Function.update_self]
      · rw [Function.update_of_ne hne, Function.update_of_ne hne, h e he]
    · rfl

/-- A scatter of all items is one of the first items and of the others. -/
theorem scatter_take {l : List (ℕ × α)} {bins : ℕ → ℕ} {out out' : List (Option α)}
    (h : scatter l bins out = some out') (i : ℕ) :
    ∃ cells, scatter (l.take i) bins out = some cells := by
  rw [← List.take_append_drop i l, scatter_append] at h
  obtain ⟨cells, hcells, -⟩ := Option.bind_eq_some_iff.mp h
  exact ⟨cells, hcells⟩

theorem scatter_next {l : List (ℕ × α)} {bins : ℕ → ℕ} {out cells cells' : List (Option α)} {i j : ℕ}
    (hi : scatter (l.take i) bins out = some cells)
    (hj : scatter (l.take (i + j)) bins out = some cells') :
    scatter ((l.drop i).take j) (fun d => bins d + binCount Prod.fst (l.take i) d) cells =
      some cells' := by
  rw [List.take_add, scatter_append, hi, Option.bind_some] at hj
  exact hj

/-! ## 3. The portions of a pass -/

theorem OnesweepPolicy.portionSize_pos (policy : OnesweepPolicy) : 0 < policy.portionSize :=
  Nat.mul_pos (Nat.div_pos policy.tileItems_le policy.tileItems_pos) policy.tileItems_pos

section Portions

variable {D : DispatchImpl K} {p : Pass} {keys : List K} {values : List V} {mem0 : Memory K V}

/-- The keys of a pass with their digits. -/
def keyed (D : DispatchImpl K) (p : Pass) (keys : List K) : List (ℕ × K) :=
  keys.map fun key => (D.digit p key, key)

/-- The values of a pass with the digits of their keys. -/
def valued (D : DispatchImpl K) (p : Pass) (items : List (K × V)) : List (ℕ × V) :=
  items.map fun item => (D.digit p item.1, item.2)

theorem binCount_keyed (d : ℕ) : binCount Prod.fst (D.keyed p keys) d = binCount (D.digit p) keys d := by
  rw [binCount, keyed, List.countP_map]
  rfl

theorem map_fst_valued (h : keys.length = values.length) :
    (D.valued p (keys.zip values)).map Prod.fst = (D.keyed p keys).map Prod.fst := by
  have hkeys : (keys.zip values).map Prod.fst = keys := List.map_fst_zip h.le
  rw [valued, keyed, List.map_map, List.map_map]
  conv_rhs => rw [← hkeys, List.map_map]
  rfl

theorem binCount_map_fst {β : Type} {l : List (ℕ × α)} {m : List (ℕ × β)}
    (h : l.map Prod.fst = m.map Prod.fst) (i d : ℕ) :
    binCount Prod.fst (l.take i) d = binCount Prod.fst (m.take i) d := by
  have hcount : ∀ {γ : Type} (k : List (ℕ × γ)),
      binCount Prod.fst (k.take i) d = (k.map Prod.fst |>.take i).countP fun e => e = d := by
    intro γ k
    rw [← List.map_take, List.countP_map]
    rfl
  rw [hcount, hcount, h]

theorem binStart_map_fst {β : Type} {l : List (ℕ × α)} {m : List (ℕ × β)}
    (h : l.map Prod.fst = m.map Prod.fst) : binStart Prod.fst l = binStart Prod.fst m := by
  funext d
  have hcount : ∀ {γ : Type} (k : List (ℕ × γ)),
      binStart Prod.fst k d = (k.map Prod.fst).countP fun e => e < d := by
    intro γ k
    rw [List.countP_map]
    rfl
  rw [hcount, hcount, h]

/-- What the portions up to `i` have written, and the bins for the next one. -/
structure PortionInv (D : DispatchImpl K) (policy : OnesweepPolicy) (numPasses numPortions pass : ℕ)
    (p : Pass) (keys : List K) (values : List V) (mem0 : Memory K V) (dBins0 : List (Option ℕ)) (j : ℕ)
    (s : Memory K V × List (Option ℕ)) : Prop where
  keysCells : ∃ cells, scatter ((D.keyed p keys).take (min D.numItems (j * policy.portionSize)))
      (binStart Prod.fst (D.keyed p keys)) (mem0.keys p.keysOut) = some cells ∧
    s.1.keys = Function.update mem0.keys p.keysOut cells
  valuesCells : D.keysOnly = false → ∃ cells,
    scatter ((D.valued p (keys.zip values)).take (min D.numItems (j * policy.portionSize)))
      (binStart Prod.fst (D.keyed p keys)) (mem0.values p.valuesOut) = some cells ∧
    s.1.values = Function.update mem0.values p.valuesOut cells
  noValues : D.keysOnly = true → s.1.values = mem0.values
  bins : j < numPortions → HasBins (2 ^ policy.radixBits)
    ((j * numPasses + pass) * 2 ^ policy.radixBits)
    (fun d => binStart Prod.fst (D.keyed p keys) d + binCount Prod.fst
      ((D.keyed p keys).take (min D.numItems (j * policy.portionSize))) d) s.2
  first : ∀ q < numPasses * 2 ^ policy.radixBits, s.2[q]? = dBins0[q]?
  length : s.2.length = numPortions * numPasses * 2 ^ policy.radixBits

theorem Ready.scatter_keys (h : D.Ready p keys values mem0) :
    scatter (D.keyed p keys) (binStart Prod.fst (D.keyed p keys)) (mem0.keys p.keysOut) =
      some ((D.keysAfter p keys).map some) := by
  rw [scatter_eq (2 ^ p.passBits)]
  · rw [keyed, stablePartition_map, List.map_map]
    rfl
  · intro a ha
    obtain ⟨key, -, rfl⟩ := List.mem_map.mp ha
    exact digit_lt p key
  · rw [h.keysOut, keyed, List.length_map, h.keys_length]

theorem Ready.scatter_values (h : D.Ready p keys values mem0) (hkeysOnly : D.keysOnly = false) :
    scatter (D.valued p (keys.zip values)) (binStart Prod.fst (D.keyed p keys))
      (mem0.values p.valuesOut) =
        some (((D.itemsAfter p (keys.zip values)).map Prod.snd).map some) := by
  have hlen := h.values_length hkeysOnly
  rw [← binStart_map_fst (map_fst_valued (h.keys_length.trans hlen.symm)),
    scatter_eq (2 ^ p.passBits)]
  · rw [valued, stablePartition_map, List.map_map, List.map_map]
    rfl
  · intro a ha
    obtain ⟨item, -, rfl⟩ := List.mem_map.mp ha
    exact digit_lt p item.1
  · rw [h.valuesOut hkeysOnly, valued, List.length_map, List.length_zip, h.keys_length, hlen,
      Nat.min_self]

/-- The kernel of a portion, of which the bins are what has been counted so far. -/
theorem PortionInv.kernel {policy : OnesweepPolicy} {numPasses numPortions pass : ℕ}
    {dBins0 : List (Option ℕ)} (hready : D.Ready p keys values mem0)
    (hbits : p.passBits ≤ policy.radixBits) {j first count : ℕ} {mem : Memory K V}
    {dBins : List (Option ℕ)} {binsIn : ℕ → ℕ}
    (h : D.PortionInv policy numPasses numPortions pass p keys values mem0 dBins0 j (mem, dBins))
    (hhere : min D.numItems (j * policy.portionSize) = first) (hcount : first + count ≤ D.numItems)
    (hbinsEq : ∀ d < 2 ^ policy.radixBits, binsIn d = binStart Prod.fst (D.keyed p keys) d +
      binCount Prod.fst ((D.keyed p keys).take first) d)
    {cells' : List (Option K)} (hcells' : scatter ((D.keyed p keys).take (first + count))
      (binStart Prod.fst (D.keyed p keys)) (mem0.keys p.keysOut) = some cells') :
    ∃ mem', D.onesweepKernel p first count binsIn mem =
      some (mem', (keys.drop first).take count) ∧
    mem'.keys = Function.update mem0.keys p.keysOut cells' ∧
    (D.keysOnly = false → ∃ valuesCells,
      scatter ((D.valued p (keys.zip values)).take (first + count))
        (binStart Prod.fst (D.keyed p keys)) (mem0.values p.valuesOut) = some valuesCells ∧
      mem'.values = Function.update mem0.values p.valuesOut valuesCells) ∧
    (D.keysOnly = true → mem'.values = mem0.values) := by
  obtain ⟨cells, hcells, hmem⟩ := h.keysCells
  rw [hhere] at hcells
  have hkeysLength := hready.keys_length
  have hdigits : 2 ^ p.passBits ≤ 2 ^ policy.radixBits := Nat.pow_le_pow_right (by decide) hbits
  have hread : readItems (mem.keys p.keysIn) first count = some ((keys.drop first).take count) := by
    rw [hmem, Function.update_of_ne hready.keys_ne, hready.keysIn,
      readItems_map_some (by omega)]
  have hkeys : scatter (((keys.drop first).take count).map fun key => (D.digit p key, key)) binsIn
      (mem.keys p.keysOut) = some cells' := by
    rw [hmem, Function.update_self, List.map_take, List.map_drop]
    rw [← scatter_next hcells hcells']
    refine scatter_congr (2 ^ policy.radixBits) _ _ (fun a ha => ?_) hbinsEq
    obtain ⟨key, -, rfl⟩ := List.mem_map.mp (List.mem_of_mem_drop (List.mem_of_mem_take ha))
    exact (digit_lt p key).trans_le hdigits
  have hupdate : Function.update mem.keys p.keysOut cells' =
      Function.update mem0.keys p.keysOut cells' := by rw [hmem, Function.update_idem]
  cases hkeysOnly : D.keysOnly with
  | true =>
    refine ⟨{ mem with keys := Function.update mem.keys p.keysOut cells' }, ?_, hupdate, by simp,
      fun _ => h.noValues hkeysOnly⟩
    simp only [onesweepKernel, hread, hkeys, Option.bind_eq_bind, Option.bind_some,
      if_neg hready.keys_ne, hkeysOnly, if_true]
  | false =>
    -- the values, with the digits of their keys
    obtain ⟨valuesCells, hvalues, hmemValues⟩ := h.valuesCells hkeysOnly
    rw [hhere] at hvalues
    have hvaluesLength := hready.values_length hkeysOnly
    have hfst := map_fst_valued (D := D) (p := p) (hkeysLength.trans hvaluesLength.symm)
    have hreadValues : readItems (mem.values p.valuesIn) first count =
        some ((values.drop first).take count) := by
      rw [hmemValues, Function.update_of_ne (hready.values_ne hkeysOnly), hready.valuesIn hkeysOnly,
        readItems_map_some (by omega)]
    obtain ⟨valuesCells', hvalues'⟩ := scatter_take (hready.scatter_values hkeysOnly) (first + count)
    have hzip : ((keys.drop first).take count).zip ((values.drop first).take count) =
        ((keys.zip values).drop first).take count := by
      rw [List.zip_eq_zipWith, List.zip_eq_zipWith, List.drop_zipWith, List.take_zipWith]
    have hscatter : scatter ((((keys.drop first).take count).zip
        ((values.drop first).take count)).map fun item => (D.digit p item.1, item.2)) binsIn
        (mem.values p.valuesOut) = some valuesCells' := by
      rw [hmemValues, Function.update_self, hzip, List.map_take, List.map_drop]
      rw [← scatter_next hvalues hvalues']
      refine scatter_congr (2 ^ policy.radixBits) _ _ (fun a ha => ?_) fun d hd => ?_
      · obtain ⟨item, -, rfl⟩ := List.mem_map.mp (List.mem_of_mem_drop (List.mem_of_mem_take ha))
        exact (digit_lt p item.1).trans_le hdigits
      · rw [hbinsEq d hd, binCount_map_fst hfst]
    refine ⟨⟨Function.update mem.keys p.keysOut cells',
      Function.update mem.values p.valuesOut valuesCells'⟩, ?_, hupdate, fun _ =>
        ⟨valuesCells', hvalues', ?_⟩, by simp⟩
    · simp only [onesweepKernel, hread, hkeys, Option.bind_eq_bind, Option.bind_some,
        if_neg hready.keys_ne, hkeysOnly, Bool.false_eq_true, if_false, hreadValues, hscatter,
        if_neg (hready.values_ne hkeysOnly)]
    · rw [hmemValues, Function.update_idem]

/-- **A portion continues the scatter.** -/
theorem PortionInv.next {policy : OnesweepPolicy} {numPasses numPortions pass : ℕ}
    {dBins0 : List (Option ℕ)} (hready : D.Ready p keys values mem0) (hpass : pass < numPasses)
    (hbits : p.passBits ≤ policy.radixBits) {j : ℕ} {s : Memory K V × List (Option ℕ)}
    (hj : j < numPortions) (hitems : j * policy.portionSize < D.numItems)
    (h : D.PortionInv policy numPasses numPortions pass p keys values mem0 dBins0 j s) :
    ∃ s', D.invokePortion policy numPasses numPortions pass p s j = some s' ∧
      D.PortionInv policy numPasses numPortions pass p keys values mem0 dBins0 (j + 1) s' := by
  obtain ⟨mem, dBins⟩ := s
  -- the bins of the portion, and its items
  obtain ⟨binsIn, hbinsIn, hbinsEq⟩ := (h.bins hj).read (Nat.two_pow_pos _)
  obtain ⟨first, hfirst⟩ : ∃ first, first = j * policy.portionSize := ⟨_, rfl⟩
  obtain ⟨count, hcount⟩ : ∃ count, count = min (D.numItems - first) policy.portionSize := ⟨_, rfl⟩
  have hhere : min D.numItems (j * policy.portionSize) = first := by omega
  have hnext : min D.numItems ((j + 1) * policy.portionSize) = first + count := by
    rw [Nat.succ_mul]
    omega
  rw [hhere] at hbinsEq
  obtain ⟨cells', hcells'⟩ := scatter_take hready.scatter_keys (first + count)
  obtain ⟨mem', hkernel, hkeys', hvalues', hnoValues'⟩ :=
    h.kernel hready hbits hhere (by omega) hbinsEq hcells'
  have hcounts : ∀ d, binCount Prod.fst ((D.keyed p keys).take (first + count)) d =
      binCount Prod.fst ((D.keyed p keys).take first) d +
        binCount (D.digit p) ((keys.drop first).take count) d := fun d => by
    rw [List.take_add, binCount_append, ← binCount_keyed, keyed, keyed, List.map_take, List.map_drop]
  have hstep : ∃ dBins', D.invokePortion policy numPasses numPortions pass p (mem, dBins) j =
        some (mem', dBins') ∧ dBins'.length = dBins.length ∧
      (j + 1 < numPortions → HasBins (2 ^ policy.radixBits)
        (((j + 1) * numPasses + pass) * 2 ^ policy.radixBits)
        (fun d => binsIn d + binCount (D.digit p) ((keys.drop first).take count) d) dBins') ∧
      ∀ q < ((j + 1) * numPasses + pass) * 2 ^ policy.radixBits, dBins'[q]? = dBins[q]? := by
    unfold invokePortion
    simp only [hbinsIn, ← hfirst, ← hcount, hkernel, Option.bind_eq_bind, Option.bind_some]
    split
    · rename_i hbefore
      have hroom : ((j + 1) * numPasses + pass) * 2 ^ policy.radixBits + 2 ^ policy.radixBits ≤
          dBins.length := by
        have hrow : (j + 1) * numPasses + pass + 1 ≤ numPortions * numPasses := by
          have hle : (j + 2) * numPasses ≤ numPortions * numPasses :=
            Nat.mul_le_mul_right _ (by omega)
          rw [Nat.succ_mul] at hle
          omega
        have hmul := Nat.mul_le_mul_right (2 ^ policy.radixBits) hrow
        rw [Nat.succ_mul] at hmul
        exact hmul.trans h.length.ge
      obtain ⟨dBins', hwrite, hlen, hbins, hframe⟩ := writeBins_spec
        (fun d => binsIn d + binCount (D.digit p) ((keys.drop first).take count) d) hroom
      refine ⟨dBins', ?_, hlen, fun _ => hbins, hframe⟩
      rw [hwrite, Option.map_some]
    · exact ⟨dBins, rfl, rfl, by omega, fun _ _ => rfl⟩
  obtain ⟨dBins', hinvoke, hlen, hbins, hframe⟩ := hstep
  refine ⟨(mem', dBins'), hinvoke, ⟨cells', ?_, hkeys'⟩, ?_, hnoValues', fun hbefore d hd => ?_,
    fun q hq => ?_, hlen.trans h.length⟩
  · rw [hnext]
    exact hcells'
  · rw [hnext]
    exact hvalues'
  · rw [hbins hbefore d hd, hnext]
    simp only [hcounts, hbinsEq d hd, Nat.add_assoc]
  · rw [hframe q, h.first q hq]
    refine hq.trans_le (Nat.mul_le_mul_right _ ?_)
    rw [Nat.succ_mul]
    omega

theorem PortionInv.zero {policy : OnesweepPolicy} {numPasses numPortions pass : ℕ}
    {dBins : List (Option ℕ)} (hbins : HasBins (2 ^ policy.radixBits) (pass * 2 ^ policy.radixBits)
      (binStart Prod.fst (D.keyed p keys)) dBins)
    (hlen : dBins.length = numPortions * numPasses * 2 ^ policy.radixBits) :
    D.PortionInv policy numPasses numPortions pass p keys values mem0 dBins 0 (mem0, dBins) := by
  have hzero : min D.numItems (0 * policy.portionSize) = 0 := by omega
  refine ⟨⟨mem0.keys p.keysOut, ?_, (Function.update_eq_self _ _).symm⟩, fun _ =>
    ⟨mem0.values p.valuesOut, ?_, (Function.update_eq_self _ _).symm⟩, fun _ => rfl, fun _ => ?_,
    fun _ _ => rfl, hlen⟩
  · rw [hzero, List.take_zero, scatter]
  · rw [hzero, List.take_zero, scatter]
  · rw [hzero, List.take_zero, Nat.zero_mul, Nat.zero_add]
    exact hbins

/-- **The portions of a pass** leave what the pass shall leave. -/
theorem portions_spec {policy : OnesweepPolicy} {numPasses pass : ℕ} {dBins : List (Option ℕ)}
    (hready : D.Ready p keys values mem0) (hitems : 0 < D.numItems) (hpass : pass < numPasses)
    (hbits : p.passBits ≤ policy.radixBits)
    (hbins : HasBins (2 ^ policy.radixBits) (pass * 2 ^ policy.radixBits)
      (binStart Prod.fst (D.keyed p keys)) dBins)
    (hlen : dBins.length =
      ceilDiv D.numItems policy.portionSize * numPasses * 2 ^ policy.radixBits) :
    ∃ dBins', (List.range (ceilDiv D.numItems policy.portionSize)).foldlM
        (D.invokePortion policy numPasses (ceilDiv D.numItems policy.portionSize) pass p)
        (mem0, dBins) = some (D.afterPass p keys values mem0, dBins') ∧
      dBins'.length = dBins.length ∧
      ∀ q < numPasses * 2 ^ policy.radixBits, dBins'[q]? = dBins[q]? := by
  obtain ⟨numPortions, hnum⟩ : ∃ n, ceilDiv D.numItems policy.portionSize = n := ⟨_, rfl⟩
  obtain ⟨-, hbefore, henough⟩ := ceilDiv_spec hitems policy.portionSize_pos
  rw [hnum] at hbefore henough hlen ⊢
  have hrun : ∀ n ≤ numPortions, ∃ s, (List.range n).foldlM
      (D.invokePortion policy numPasses numPortions pass p) (mem0, dBins) = some s ∧
      D.PortionInv policy numPasses numPortions pass p keys values mem0 dBins n s := by
    intro n
    induction n with
    | zero => exact fun _ => ⟨(mem0, dBins), rfl, .zero hbins hlen⟩
    | succ n ih =>
      intro hn
      obtain ⟨s, hs, hinv⟩ := ih (by omega)
      have hle : n * policy.portionSize ≤ (numPortions - 1) * policy.portionSize :=
        Nat.mul_le_mul_right _ (by omega)
      obtain ⟨s', hs', hinv'⟩ := hinv.next hready hpass hbits (by omega) (by omega)
      refine ⟨s', ?_, hinv'⟩
      rw [List.range_succ, List.foldlM_append, hs]
      simp only [Option.bind_eq_bind, Option.bind_some, List.foldlM_cons, hs', List.foldlM_nil]
      rfl
  obtain ⟨⟨mem, dBins'⟩, hs, hinv⟩ := hrun numPortions (Nat.le_refl _)
  have hall : min D.numItems (numPortions * policy.portionSize) = D.numItems :=
    Nat.min_eq_left henough
  have htakeKeys : (D.keyed p keys).take D.numItems = D.keyed p keys := by
    refine List.take_of_length_le ?_
    rw [keyed, List.length_map, hready.keys_length]
  have hmem : mem = D.afterPass p keys values mem0 := by
    obtain ⟨cells, hcells, hkeys⟩ := hinv.keysCells
    rw [hall, htakeKeys, hready.scatter_keys, Option.some.injEq] at hcells
    have hvalues : mem.values = (D.afterPass p keys values mem0).values := by
      cases hkeysOnly : D.keysOnly with
      | true => rw [hinv.noValues hkeysOnly, afterPass, if_pos hkeysOnly]
      | false =>
        obtain ⟨valuesCells, hvaluesCells, hvalues⟩ := hinv.valuesCells hkeysOnly
        have htake : (D.valued p (keys.zip values)).take D.numItems = D.valued p (keys.zip values) := by
          refine List.take_of_length_le ?_
          rw [valued, List.length_map, List.length_zip, hready.keys_length]
          exact Nat.min_le_left _ _
        rw [hall, htake, hready.scatter_values hkeysOnly, Option.some.injEq] at hvaluesCells
        rw [hvalues, afterPass, if_neg (by rw [hkeysOnly]; simp), hvaluesCells]
    obtain ⟨memKeys, memValues⟩ := mem
    simp only at hkeys hvalues
    rw [hkeys, hvalues, ← hcells]
    rfl
  exact ⟨dBins', by rw [hs, hmem], hinv.length.trans hlen.symm, hinv.first⟩

end Portions

/-! ## 4. The bins of the first portion -/

theorem length_row {β : Type} (f : ℕ → ℕ → β) (rows columns : ℕ) :
    ∀ row ∈ (List.range rows).map fun i => (List.range columns).map (f i), row.length = columns := by
  intro row hrow
  obtain ⟨i, -, rfl⟩ := List.mem_map.mp hrow
  rw [List.length_map, List.length_range]

theorem length_initialBins (D : DispatchImpl K) (policy : OnesweepPolicy) {numPasses numPortions : ℕ}
    (hpos : 0 < numPortions) (keys : List K) :
    (D.initialBins policy numPasses numPortions keys).length =
      numPortions * numPasses * 2 ^ policy.radixBits := by
  obtain ⟨n, rfl⟩ := Nat.exists_eq_add_one.mpr hpos
  rw [initialBins, List.length_append, List.length_replicate, List.flatMap_def,
    length_flatten_eq (length_row _ _ _), List.length_map, List.length_range, Nat.add_sub_cancel,
    Nat.succ_mul, Nat.add_mul, Nat.mul_comm (2 ^ policy.radixBits), Nat.add_comm]

/-- **The bins of a pass** are those of any permutation of the input. -/
theorem initialBins_spec (D : DispatchImpl K) (policy : OnesweepPolicy) {numPasses pass : ℕ}
    (numPortions : ℕ) {p : Pass} {input keys : List K} (hpass : pass < numPasses)
    (hperm : keys.Perm input) (hbit : p.currentBit = D.beginBit + pass * policy.radixBits)
    (hbits : p.passBits = min (D.endBit - p.currentBit) policy.radixBits) :
    HasBins (2 ^ policy.radixBits) (pass * 2 ^ policy.radixBits)
      (binStart Prod.fst (D.keyed p keys)) (D.initialBins policy numPasses numPortions input) := by
  intro d hd
  have hpos := Nat.two_pow_pos policy.radixBits
  have hin : pass * 2 ^ policy.radixBits + d < numPasses * 2 ^ policy.radixBits := by
    have := Nat.mul_le_mul_right (2 ^ policy.radixBits) (Nat.succ_le_of_lt hpass)
    rw [Nat.succ_mul] at this
    omega
  rw [initialBins, List.flatMap_def, List.getElem?_append_left, getElem?_flatten hpos _ (length_row _ _ _),
    Nat.mul_comm pass, Nat.mul_add_div hpos, Nat.div_eq_of_lt hd, Nat.mul_add_mod,
    Nat.mod_eq_of_lt hd, Nat.add_zero, List.getElem?_map, List.getElem?_range hpass, Option.map_some,
    Option.bind_some, List.getElem?_map, List.getElem?_range hd, Option.map_some]
  · have hdigit : (fun key => bitField (D.beginBit + pass * policy.radixBits)
        (min (D.endBit - (D.beginBit + pass * policy.radixBits)) policy.radixBits) (D.bits key)) =
        D.digit p := by
      funext key
      rw [digit, hbits, hbit]
    have hcount : binCount (D.digit p) input = binCount Prod.fst (D.keyed p keys) := by
      funext e
      rw [binCount_keyed]
      exact (hperm.countP_eq _).symm
    rw [hdigit, hcount, binStart_eq_sum]
  · rw [length_flatten_eq (length_row _ _ _), List.length_map, List.length_range,
      Nat.mul_comm _ numPasses]
    exact hin

end DispatchImpl

end Cccl.RadixSort
