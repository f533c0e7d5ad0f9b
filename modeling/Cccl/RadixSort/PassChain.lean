/-
# What the passes leave in memory

After a pass its output buffer has the stable partition of its input by the digit of the pass, and all other
buffers are as before (`afterPass`).  So the buffer that the next pass reads has a stable sort of the input
by all bits so far (`AfterPasses`), as each digit begins where the one before it ends.  After the last
pass these are all bits.
-/
import Cccl.RadixSort.PassPlan

namespace Cccl.RadixSort

open DigitSort StableSort

variable {α K V : Type}

/-! ## 1. Cells -/

theorem loaded_map_some : ∀ l : List α, loaded (l.map some) = some l
  | [] => rfl
  | a :: l => by rw [List.map_cons, loaded, loaded_map_some l, Option.map_some]

theorem readItems_map_some {l : List α} {offset count : ℕ} (h : offset + count ≤ l.length) :
    readItems (l.map some) offset count = some ((l.drop offset).take count) := by
  rw [readItems, List.length_map, if_pos h, ← List.map_drop, ← List.map_take, loaded_map_some]

theorem readItems_all {l : List α} {n : ℕ} (h : l.length = n) :
    readItems (l.map some) 0 n = some l := by
  rw [readItems_map_some (by omega), List.drop_zero, List.take_of_length_le h.le]

theorem writeItems_all {cells : List (Option α)} {l : List α} (h : cells.length = l.length) :
    writeItems cells l = some (l.map some) := by
  rw [writeItems, if_pos h.ge, List.drop_of_length_le h.le, List.append_nil]

namespace DispatchImpl

variable (D : DispatchImpl K)

/-! ## 2. A pass -/

/-- The sorted keys of a pass, and the values with them. -/
def keysAfter (p : Pass) (keys : List K) : List K :=
  stablePartition (D.digit p) (2 ^ p.passBits) keys

def itemsAfter (p : Pass) (items : List (K × V)) : List (K × V) :=
  stablePartition (fun item => D.digit p item.1) (2 ^ p.passBits) items

/-- **What a pass leaves in memory.** -/
def afterPass (p : Pass) (keys : List K) (values : List V) (mem : Memory K V) : Memory K V where
  keys := Function.update mem.keys p.keysOut ((D.keysAfter p keys).map some)
  values := if D.keysOnly then mem.values
    else Function.update mem.values p.valuesOut
      (((D.itemsAfter p (keys.zip values)).map Prod.snd).map some)

variable {D}

theorem digit_lt (p : Pass) (key : K) : D.digit p key < 2 ^ p.passBits := bitField_lt _ _ _

theorem length_keysAfter (p : Pass) (keys : List K) : (D.keysAfter p keys).length = keys.length := by
  rw [keysAfter, length_stablePartition, binStart_eq_length fun key _ => digit_lt p key]

theorem length_itemsAfter (p : Pass) (items : List (K × V)) :
    (D.itemsAfter p items).length = items.length := by
  rw [itemsAfter, length_stablePartition, binStart_eq_length fun item _ => digit_lt p item.1]

theorem map_fst_itemsAfter (p : Pass) {keys : List K} {values : List V}
    (h : keys.length = values.length) :
    (D.itemsAfter p (keys.zip values)).map Prod.fst = D.keysAfter p keys := by
  rw [itemsAfter, keysAfter, ← stablePartition_map Prod.fst, List.map_fst_zip h.le]

/-- The buffers of a pass as it begins. -/
structure Ready (D : DispatchImpl K) (p : Pass) (keys : List K) (values : List V)
    (mem : Memory K V) : Prop where
  keysIn : mem.keys p.keysIn = keys.map some
  keys_length : keys.length = D.numItems
  keysOut : (mem.keys p.keysOut).length = D.numItems
  keys_ne : p.keysIn ≠ p.keysOut
  valuesIn : D.keysOnly = false → mem.values p.valuesIn = values.map some
  values_length : D.keysOnly = false → values.length = D.numItems
  valuesOut : D.keysOnly = false → (mem.values p.valuesOut).length = D.numItems
  values_ne : D.keysOnly = false → p.valuesIn ≠ p.valuesOut

theorem sortKernels_eq {p : Pass} {keys : List K} {values : List V} {mem : Memory K V}
    (h : D.Ready p keys values mem) : D.sortKernels p mem = some (D.afterPass p keys values mem) := by
  have hkeys := readItems_all h.keys_length
  have hkeysOut : writeItems (mem.keys p.keysOut) (D.keysAfter p keys) =
      some ((D.keysAfter p keys).map some) :=
    writeItems_all (by rw [h.keysOut, length_keysAfter, h.keys_length])
  rw [keysAfter] at hkeysOut
  cases hkeysOnly : D.keysOnly with
  | true =>
    simp only [sortKernels, h.keysIn, hkeys, hkeysOut, Option.bind_eq_bind, Option.bind_some,
      if_neg h.keys_ne, hkeysOnly, if_true, afterPass, keysAfter]
  | false =>
    have hvalues := readItems_all (h.values_length hkeysOnly)
    have hvaluesOut : writeItems (mem.values p.valuesOut)
        ((D.itemsAfter p (keys.zip values)).map Prod.snd) =
        some (((D.itemsAfter p (keys.zip values)).map Prod.snd).map some) := by
      refine writeItems_all ?_
      rw [h.valuesOut hkeysOnly, List.length_map, length_itemsAfter, List.length_zip, h.keys_length,
        h.values_length hkeysOnly, Nat.min_self]
    rw [itemsAfter] at hvaluesOut
    simp only [sortKernels, h.keysIn, hkeys, hkeysOut, Option.bind_eq_bind, Option.bind_some,
      if_neg h.keys_ne, hkeysOnly, if_false, Bool.false_eq_true, h.valuesIn hkeysOnly, hvalues,
      hvaluesOut, if_neg (h.values_ne hkeysOnly), afterPass, keysAfter, itemsAfter]

/-! ## 3. The chain of passes -/

/-- The items are compared by the bits up to `c`. -/
def bitsBelow (D : DispatchImpl K) (c : ℕ) : K → K → Bool :=
  below fun key => bitField D.beginBit (c - D.beginBit) (D.bits key)

/-- The same for keys with their values. -/
def itemBitsBelow (D : DispatchImpl K) (V : Type) (c : ℕ) : K × V → K × V → Bool :=
  below fun item => bitField D.beginBit (c - D.beginBit) (D.bits item.1)

instance (D : DispatchImpl K) (c : ℕ) : IsStrictWeakOrder K fun a b => D.bitsBelow c a b = true :=
  inferInstanceAs (IsStrictWeakOrder K fun a b => below _ a b = true)

/-- What is passed to the sort. -/
structure Input (D : DispatchImpl K) (V : Type) where
  mem : Memory K V
  keysSelector : Fin 2
  valuesSelector : Fin 2
  keys : List K
  values : List V
  keys_length : keys.length = D.numItems
  keys_current : mem.keys (.user keysSelector) = keys.map some
  keys_alternate : (mem.keys (.user (keysSelector + 1))).length = D.numItems
  values_length : D.keysOnly = false → values.length = D.numItems
  values_current : D.keysOnly = false → mem.values (.user valuesSelector) = values.map some
  values_alternate : D.keysOnly = false →
    (mem.values (.user (valuesSelector + 1))).length = D.numItems

/-- The plan of the passes: the bits and the buffers. -/
structure Plan where
  bit : ℕ → ℕ
  keys : ℕ → Buffer
  values : ℕ → Buffer

def Plan.pass (plan : Plan) (m : ℕ) : Pass :=
  ⟨plan.bit m, plan.bit (m + 1) - plan.bit m, plan.keys m, plan.keys (m + 1), plan.values m,
    plan.values (m + 1)⟩

/-- The plan of a number of passes over the input. -/
structure Plan.Valid (D : DispatchImpl K) (plan : Plan) (numPasses : ℕ) (I : Input D V) : Prop where
  bit_zero : plan.bit 0 = D.beginBit
  bit_le : ∀ m, plan.bit m ≤ plan.bit (m + 1)
  keys_zero : plan.keys 0 = .user I.keysSelector
  values_zero : plan.values 0 = .user I.valuesSelector
  keys_ne : ∀ m, plan.keys m ≠ plan.keys (m + 1)
  values_ne : ∀ m, plan.values m ≠ plan.values (m + 1)
  keep : D.canOverwriteSourceBuffer = false → ∀ m, plan.keys (m + 1) ≠ .user I.keysSelector ∧
    plan.values (m + 1) ≠ .user I.valuesSelector

/-- **After some passes:** the sorted items are where the next pass reads. -/
structure AfterPasses (D : DispatchImpl K) (I : Input D V) (plan : Plan) (numPasses m : ℕ)
    (keys : List K) (values : List V) (mem : Memory K V) : Prop where
  keysAt : mem.keys (plan.keys m) = keys.map some
  keysSorted : IsStableSort (D.bitsBelow (plan.bit m)) I.keys keys
  valuesAt : D.keysOnly = false → mem.values (plan.values m) = values.map some
  itemsSorted : D.keysOnly = false → values.length = keys.length ∧
    IsStableSort (D.itemBitsBelow V (plan.bit m)) (I.keys.zip I.values) (keys.zip values)
  keysRoom : ∀ i ≤ numPasses, (mem.keys (plan.keys i)).length = D.numItems
  valuesRoom : D.keysOnly = false → ∀ i ≤ numPasses,
    (mem.values (plan.values i)).length = D.numItems
  kept : D.canOverwriteSourceBuffer = false →
    mem.keys (.user I.keysSelector) = I.keys.map some ∧
    (D.keysOnly = false → mem.values (.user I.valuesSelector) = I.values.map some)

variable {I : Input D V} {plan : Plan} {numPasses m : ℕ} {keys : List K} {values : List V}
  {mem : Memory K V}

theorem bitsBelow_step {b c d : ℕ} (hbc : b ≤ c) (hcd : c ≤ d) (x y : ℕ) :
    bitField b (d - b) x < bitField b (d - b) y ↔
      bitField c (d - c) x < bitField c (d - c) y ∨
        bitField c (d - c) x = bitField c (d - c) y ∧ bitField b (c - b) x < bitField b (c - b) y := by
  have hwidth : d - b = c - b + (d - c) := by omega
  have hstart : b + (c - b) = c := by omega
  rw [hwidth, bitField_add_lt, hstart]

theorem AfterPasses.keys_length (h : D.AfterPasses I plan numPasses m keys values mem) :
    keys.length = D.numItems := by
  rw [h.keysSorted.perm.length_eq, I.keys_length]

theorem AfterPasses.ready (h : D.AfterPasses I plan numPasses m keys values mem)
    (hplan : plan.Valid D numPasses I) (hm : m < numPasses) : D.Ready (plan.pass m) keys values mem where
  keysIn := h.keysAt
  keys_length := h.keys_length
  keysOut := h.keysRoom (m + 1) hm
  keys_ne := hplan.keys_ne m
  valuesIn := h.valuesAt
  values_length hkeysOnly := (h.itemsSorted hkeysOnly).1.trans h.keys_length
  valuesOut hkeysOnly := h.valuesRoom hkeysOnly (m + 1) hm
  values_ne _ := hplan.values_ne m

theorem AfterPasses.zero (hplan : plan.Valid D numPasses I) (hmem : mem.keys (.user I.keysSelector) =
      I.keys.map some)
    (hvalues : D.keysOnly = false → mem.values (.user I.valuesSelector) = I.values.map some)
    (hroom : ∀ i ≤ numPasses, (mem.keys (plan.keys i)).length = D.numItems)
    (hvaluesRoom : D.keysOnly = false → ∀ i ≤ numPasses,
      (mem.values (plan.values i)).length = D.numItems) :
    D.AfterPasses I plan numPasses 0 I.keys I.values mem := by
  have hnone : ∀ x, bitField D.beginBit (D.beginBit - D.beginBit) x = 0 := fun x => by
    rw [bitField, Nat.sub_self, Nat.pow_zero, Nat.mod_one]
  refine ⟨by rw [hplan.keys_zero, hmem], ⟨?_, fun _ => rfl⟩, fun hkeysOnly => ?_, fun hkeysOnly =>
    ⟨?_, ?_, fun _ => rfl⟩, hroom, hvaluesRoom, fun _ => ⟨hmem, hvalues⟩⟩
  · refine List.pairwise_of_forall_mem_list fun a _ b _ => ?_
    rw [bitsBelow, below_eq_false, hplan.bit_zero, hnone, hnone]
  · rw [hplan.values_zero, hvalues hkeysOnly]
  · rw [I.values_length hkeysOnly, I.keys_length]
  · refine List.pairwise_of_forall_mem_list fun a _ b _ => ?_
    rw [itemBitsBelow, below_eq_false, hplan.bit_zero, hnone, hnone]

/-- **A pass adds its bits.** -/
theorem AfterPasses.succ (h : D.AfterPasses I plan numPasses m keys values mem)
    (hplan : plan.Valid D numPasses I) (hbegin : D.beginBit ≤ plan.bit m) :
    D.AfterPasses I plan numPasses (m + 1) (D.keysAfter (plan.pass m) keys)
      ((D.itemsAfter (plan.pass m) (keys.zip values)).map Prod.snd)
      (D.afterPass (plan.pass m) keys values mem) := by
  have hlen := h.keys_length
  have hkeys : (D.afterPass (plan.pass m) keys values mem).keys =
      Function.update mem.keys (plan.keys (m + 1)) ((D.keysAfter (plan.pass m) keys).map some) := rfl
  have hvalues : D.keysOnly = false → (D.afterPass (plan.pass m) keys values mem).values =
      Function.update mem.values (plan.values (m + 1))
        (((D.itemsAfter (plan.pass m) (keys.zip values)).map Prod.snd).map some) :=
    fun hkeysOnly => if_neg (by rw [hkeysOnly]; exact Bool.false_ne_true)
  refine ⟨?_, ?_, fun hkeysOnly => ?_, fun hkeysOnly => ?_, fun i hi => ?_, fun hkeysOnly i hi => ?_,
    fun hkeep => ⟨?_, fun hkeysOnly => ?_⟩⟩
  · rw [hkeys, Function.update_self]
  · exact stablePartition_isStableSort h.keysSorted (fun key _ => digit_lt (plan.pass m) key) fun a b =>
      bitsBelow_step hbegin (hplan.bit_le m) (D.bits a) (D.bits b)
  · rw [hvalues hkeysOnly, Function.update_self]
  · obtain ⟨hlenValues, hsorted⟩ := h.itemsSorted hkeysOnly
    refine ⟨?_, ?_⟩
    · rw [List.length_map, length_itemsAfter, length_keysAfter, List.length_zip, hlenValues,
        Nat.min_self]
    · have hzip : D.itemsAfter (plan.pass m) (keys.zip values) = _ := List.zip_of_prod rfl rfl
      rw [← map_fst_itemsAfter (plan.pass m) hlenValues.symm, ← hzip]
      exact stablePartition_isStableSort hsorted (fun item _ => digit_lt (plan.pass m) item.1) fun a b =>
        bitsBelow_step hbegin (hplan.bit_le m) (D.bits a.1) (D.bits b.1)
  · rw [hkeys]
    rcases Classical.em (plan.keys i = plan.keys (m + 1)) with heq | hne
    · rw [heq, Function.update_self, List.length_map, length_keysAfter, hlen]
    · rw [Function.update_of_ne hne, h.keysRoom i hi]
  · obtain ⟨hlenValues, -⟩ := h.itemsSorted hkeysOnly
    rw [hvalues hkeysOnly]
    rcases Classical.em (plan.values i = plan.values (m + 1)) with heq | hne
    · rw [heq, Function.update_self, List.length_map, List.length_map, length_itemsAfter,
        List.length_zip, hlenValues, Nat.min_self, hlen]
    · rw [Function.update_of_ne hne, h.valuesRoom hkeysOnly i hi]
  · rw [hkeys, Function.update_of_ne (hplan.keep hkeep m).1.symm, (h.kept hkeep).1]
  · rw [hvalues hkeysOnly, Function.update_of_ne (hplan.keep hkeep m).2.symm,
      (h.kept hkeep).2 hkeysOnly]

end DispatchImpl

end Cccl.RadixSort
