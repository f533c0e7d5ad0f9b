/-
# Counters and the wrap of distances

When the words of a `bit_packed_counter` reach beyond `2 ^ 32` bits, the last of them is near the first counters, from
behind.  If all counters still fit, their own bits are before the place of the first counter there, and what comes after is
a copy of the first counters (`unit_last`).  Only the last one of the copies is cut off by the bits that are not used.  It
has sums of lower halves then.  If one bit is missing, such a sum has no bit that the counter has not (`or_lower`).  If
more are missing it may have (`truncated_visible`).

So counters are independent if and only if their words fit, or at least they fit and one bit is missing
(`independent_iff`).
-/
import Cccl.BatchMemcpy.BitPackedCounter
import Mathlib.Algebra.BigOperators.Ring.List
import Mathlib.Tactic.Ring

namespace Cccl.BatchMemcpy.BitPackedCounter

open Fields Rle

variable {P : BitPackedCounter}

/-! ## 1. Lower halves -/

/-- The sum of the lower halves of what was added to a counter. -/
def lowerTotal (h : History) (r index : ℕ) : ℕ := (h.adds.map fun p => if p.1 = index then p.2 % 2 ^ r else 0).sum

theorem lowerTotal_le (h : History) (r index : ℕ) : lowerTotal h r index ≤ h.total index := by
  refine List.sum_le_sum fun p _ => ?_
  split
  · exact Nat.mod_le _ _
  · exact le_rfl

theorem lowerTotal_mod (h : History) (r index : ℕ) : lowerTotal h r index % 2 ^ r = h.total index % 2 ^ r := by
  rw [lowerTotal, History.total, List.sum_nat_mod, List.sum_nat_mod (h.adds.map _), List.map_map, List.map_map]
  refine congrArg (fun l : List ℕ => l.sum % 2 ^ r) (List.map_congr_left fun p _ => ?_)
  change (if p.1 = index then p.2 % 2 ^ r else 0) % 2 ^ r = (if p.1 = index then p.2 else 0) % 2 ^ r
  split
  · exact Nat.mod_mod _ _
  · rfl

/-- **A number that differs in the highest bit at most** adds no bit. -/
theorem or_lower {t low r : ℕ} (hle : low ≤ t) (hmod : low % 2 ^ r = t % 2 ^ r) (ht : t < 2 ^ (r + 1)) :
    t ||| low = t := by
  have hsplit := Nat.pow_succ 2 r
  rcases Nat.lt_or_ge low (2 ^ r) with hlow | hhigh
  · rw [Nat.mod_eq_of_lt hlow] at hmod
    rcases Nat.lt_or_ge t (2 ^ r) with hless | hmore
    · rw [Nat.mod_eq_of_lt hless] at hmod
      rw [hmod, Nat.or_self]
    · rw [Nat.mod_eq_sub_mod hmore, Nat.mod_eq_of_lt (by omega)] at hmod
      have ht' : t = 2 ^ r * 1 + low := by omega
      rw [ht', Nat.two_pow_add_eq_or_of_lt hlow, Nat.or_assoc, Nat.or_self]
  · rw [Nat.mod_eq_sub_mod hhigh, Nat.mod_eq_sub_mod (hhigh.trans hle), Nat.mod_eq_of_lt (by omega),
      Nat.mod_eq_of_lt (by omega)] at hmod
    rw [show low = t by omega, Nat.or_self]

theorem shifted_cut (v s r : ℕ) : v * 2 ^ s % 2 ^ (s + r) = v % 2 ^ r * 2 ^ s := by
  rw [Nat.add_comm, Nat.pow_add, Nat.mul_mod_mul_right]

/-! ## 2. The last word -/

/-- The last word reaches beyond all distances, and starts before: the first counters come in it behind `G` fields and
`rest` bits. -/
structure Reaches (P : BitPackedCounter) (last G rest : ℕ) : Prop where
  units : P.numTotalUnits = last + 1
  start : last * P.usedBitsPerUnit + (P.bitsPerItem * G + rest) = 2 ^ 32
  rest_lt : rest < P.bitsPerItem
  rest_eq : 2 ^ 32 % P.bitsPerItem = rest
  fields_lt : G < P.itemsPerUnit
  last_pos : 0 < last
  first_lt : last * P.itemsPerUnit < P.numItems
  rest_pos : 0 < rest
  used_lt : P.usedBitsPerUnit < 32

/-- A width that divides `2 ^ 32` divides a word. -/
theorem dvd_word {b : ℕ} (hb : b ≤ 32) (hdvd : b ∣ 2 ^ 32) : b ∣ 32 := by
  obtain ⟨x, -, rfl⟩ := (Nat.dvd_prime_pow Nat.prime_two).mp hdvd
  have hx : x ≤ 5 := (Nat.pow_le_pow_iff_right (a := 2) (by decide)).mp hb
  exact Nat.pow_dvd_pow 2 hx

theorem exists_reaches (hbits : P.numItems * P.bitsPerItem ≤ 2 ^ 32)
    (hbeyond : 2 ^ 32 < P.numTotalUnits * P.usedBitsPerUnit) : ∃ last G rest, Reaches P last G rest := by
  obtain ⟨last, hunits, hfirst, -⟩ := P.numTotalUnits_spec
  obtain ⟨hone, hle, -, -⟩ := P.bitsPerItem_spec
  have hused := P.usedBitsPerUnit_le
  rw [hunits, Nat.add_one_mul] at hbeyond
  have hmul : last * P.usedBitsPerUnit = P.bitsPerItem * (last * P.itemsPerUnit) := by
    rw [usedBitsPerUnit_eq, Nat.mul_left_comm]
  have hstart : last * P.usedBitsPerUnit < 2 ^ 32 := by
    rw [hmul, Nat.mul_comm]
    exact index_mul_lt hbits hfirst
  obtain ⟨g, hg⟩ := Nat.exists_eq_add_of_lt hstart
  have hdivision := Nat.div_add_mod (g + 1) P.bitsPerItem
  have hrest : 2 ^ 32 % P.bitsPerItem = (g + 1) % P.bitsPerItem := by
    rw [hg, hmul, Nat.add_assoc, Nat.mul_add_mod]
  -- with a width that divides a word, all words end with all counters
  have hnot : ¬ P.bitsPerItem ∣ 32 := by
    intro hdvd
    have hthirtytwo : P.usedBitsPerUnit = 32 := Nat.div_mul_cancel hdvd
    rw [hthirtytwo] at hstart hbeyond
    omega
  refine ⟨last, (g + 1) / P.bitsPerItem, (g + 1) % P.bitsPerItem, hunits, by omega, Nat.mod_lt _ hone, hrest, ?_, ?_, hfirst,
    ?_, ?_⟩
  · refine Nat.div_lt_of_lt_mul ?_
    rw [← usedBitsPerUnit_eq]
    omega
  · rcases Nat.eq_zero_or_pos last with rfl | hpos
    · rw [Nat.zero_mul] at hbeyond
      omega
    · exact hpos
  · refine Nat.pos_of_ne_zero fun hzero => hnot (dvd_word hle (Nat.dvd_of_mod_eq_zero (hrest.trans hzero)))
  · refine Nat.lt_of_le_of_ne hused fun heq => hnot ⟨P.itemsPerUnit, ?_⟩
    rw [← usedBitsPerUnit_eq, heq]

namespace Reaches

variable {last G rest index : ℕ} (hreaches : Reaches P last G rest)
include hreaches

theorem start_lt : last * P.usedBitsPerUnit < 2 ^ 32 := by
  have := hreaches.start
  have := hreaches.rest_pos
  omega

theorem bitShift_other (hother : index < last * P.itemsPerUnit) :
    P.bitShift index last = P.bitsPerItem * G + rest + P.bitsPerItem * index := by
  have hlt : index * P.bitsPerItem < last * P.usedBitsPerUnit := by
    rw [← not_le, mul_used_le_iff]
    omega
  rw [bitShift_behind hlt hreaches.start_lt, ← hreaches.start, Nat.add_sub_cancel_left, Nat.mul_comm index]

theorem cut_shift : P.bitsPerItem * G + rest + P.bitsPerItem * (P.itemsPerUnit - 1 - G) + (P.bitsPerItem - rest) =
    P.usedBitsPerUnit := by
  have hfields := hreaches.fields_lt
  have hrest := hreaches.rest_lt
  have hsum : P.itemsPerUnit = G + (P.itemsPerUnit - 1 - G) + 1 := by omega
  rw [usedBitsPerUnit_eq]
  conv_rhs => rw [hsum]
  rw [Nat.mul_succ, Nat.mul_add]
  omega

theorem cut_lt : P.itemsPerUnit - 1 - G < last * P.itemsPerUnit := by
  have hpos := P.itemsPerUnit_pos
  have hle : P.itemsPerUnit ≤ last * P.itemsPerUnit := Nat.le_mul_of_pos_left _ hreaches.last_pos
  omega

theorem own_lt (hbits : P.numItems * P.bitsPerItem ≤ 2 ^ 32) : P.numItems ≤ last * P.itemsPerUnit + G := by
  have hstart := hreaches.start
  have hrest := hreaches.rest_lt
  rw [usedBitsPerUnit_eq, Nat.mul_left_comm, ← Nat.add_assoc, ← Nat.mul_add] at hstart
  refine Nat.lt_succ_iff.mp (Nat.lt_of_mul_lt_mul_left (a := P.bitsPerItem) ?_)
  rw [Nat.mul_succ, Nat.mul_comm _ P.numItems]
  omega

variable {h : History}

/-- **The last word, if one bit is missing**: its own counters, copies of the first counters, and lower halves. -/
theorem unit_last (hone : rest = 1) (hvalid : h.Valid P) (hbits : P.numItems * P.bitsPerItem ≤ 2 ^ 32) :
    P.run h last = pack P.bitsPerItem (fun k => h.total (last * P.itemsPerUnit + k)) G +
      2 ^ (P.bitsPerItem * G + 1) * pack P.bitsPerItem (fun k => if k = P.itemsPerUnit - 1 - G
        then lowerTotal h (P.bitsPerItem - 1) k else h.total k) (P.itemsPerUnit - 1 - G + 1) := by
  subst hone
  have hcut := hreaches.cut_shift
  have hcutLt := hreaches.cut_lt
  have hown := hreaches.own_lt hbits
  have hused := hreaches.used_lt
  have hrest := hreaches.rest_lt
  generalize P.itemsPerUnit - 1 - G = J at hcut hcutLt ⊢
  have hfields : ∀ k < J + 1, (if k = J then lowerTotal h (P.bitsPerItem - 1) k else h.total k) < 2 ^ P.bitsPerItem := by
    intro k _
    split
    · exact (lowerTotal_le h _ k).trans_lt (total_lt hvalid k)
    · exact total_lt hvalid k
  have hlower := pack_lt (b := P.bitsPerItem) (n := G) fun k _ => total_lt hvalid (last * P.itemsPerUnit + k)
  have hupper := pack_lt hfields
  have hsmall : pack P.bitsPerItem (fun k => h.total (last * P.itemsPerUnit + k)) G +
      2 ^ (P.bitsPerItem * G + 1) * pack P.bitsPerItem (fun k => if k = J
        then lowerTotal h (P.bitsPerItem - 1) k else h.total k) (J + 1) < 2 ^ 32 := by
    have hle : 2 ^ (P.bitsPerItem * G) ≤ 2 ^ (P.bitsPerItem * G + 1) := Nat.pow_le_pow_right (by decide) (Nat.le_succ _)
    have hproduct := Nat.mul_le_mul_left (2 ^ (P.bitsPerItem * G + 1)) (Nat.succ_le_of_lt hupper)
    rw [Nat.mul_succ, ← Nat.pow_add] at hproduct
    have hwidth : P.bitsPerItem * G + 1 + P.bitsPerItem * (J + 1) ≤ 32 := by
      rw [Nat.mul_succ]
      omega
    have := Nat.pow_le_pow_right (n := 2) (by decide) hwidth
    omega
  rw [run_eq, ← Nat.mod_eq_of_lt hsmall]
  have hcopies : (fun k => if k = J then lowerTotal h (P.bitsPerItem - 1) k else h.total k) = fun k =>
      (h.adds.map fun p : ℕ × ℕ =>
        if p.1 = k then (if k = J then p.2 % 2 ^ (P.bitsPerItem - 1) else p.2) else 0).sum := by
    funext k
    split
    · rfl
    · rfl
  rw [hcopies]
  unfold History.total
  rw [← sum_pack (fun (p : ℕ × ℕ) k => if p.1 = last * P.itemsPerUnit + k then p.2 else 0), ← sum_pack,
    ← List.sum_map_mul_left, ← List.sum_map_add]
  refine congrArg (fun l : List ℕ => l.sum % 2 ^ 32) (List.map_congr_left fun p hp => ?_)
  have hindex := hvalid.index_lt p hp
  have hvalue := value_lt hvalid hp
  rcases Nat.lt_or_ge p.1 (last * P.itemsPerUnit) with hother | hthere
  · rw [hreaches.bitShift_other hother, pack_of_zero (n := G) fun k _ => if_neg (by omega),
      Nat.zero_add]
    rcases Nat.lt_or_ge J p.1 with hbehind | hbefore
    · have hmul := Nat.mul_le_mul_left P.bitsPerItem hbehind
      rw [Nat.mul_succ] at hmul
      rw [shifted_out (by omega), pack_of_zero fun k _ => if_neg (by omega), Nat.mul_zero]
    · have hcopy : pack P.bitsPerItem (fun k =>
          if p.1 = k then (if k = J then p.2 % 2 ^ (P.bitsPerItem - 1) else p.2) else 0) (J + 1) =
            (if p.1 = J then p.2 % 2 ^ (P.bitsPerItem - 1) else p.2) * 2 ^ (P.bitsPerItem * p.1) := by
        rw [← pack_single _ (Nat.lt_succ_iff.mpr hbefore)]
        refine pack_congr fun k _ => ?_
        by_cases hk : p.1 = k
        · rw [if_pos hk, if_pos hk, hk]
        · rw [if_neg hk, if_neg hk]
      rw [hcopy]
      split
      · rename_i hJ
        rw [hJ, ← hcut, shifted_cut, Nat.pow_add]
        ring
      · rename_i hJ
        have hmul := Nat.mul_le_mul_left P.bitsPerItem (show p.1 + 1 ≤ J by omega)
        rw [Nat.mul_succ] at hmul
        rw [shifted_within hvalue (by omega), Nat.pow_add]
        ring
  · obtain ⟨k, hk⟩ := Nat.exists_eq_add_of_le hthere
    have hkless : k < G := by omega
    have hmul := Nat.mul_le_mul_left P.bitsPerItem hkless
    rw [Nat.mul_succ] at hmul
    rw [bitShift_before (mul_used_le_iff.mpr hthere) (index_mul_lt hbits hindex), hk, sub_mul_eq,
      shifted_within hvalue (by omega), pack_of_zero (n := J + 1) fun j hj => if_neg (by omega),
      Nat.mul_zero, Nat.add_zero, ← pack_single p.2 hkless]
    exact pack_congr fun j _ => if_congr (by omega) rfl rfl

/-- What the last word has of a counter adds no bit, and of its own counters it has all. -/
theorem found_last (hone : rest = 1) (hvalid : h.Valid P) (hbits : P.numItems * P.bitsPerItem ≤ 2 ^ 32)
    (hindex : index < P.numItems) : h.total index ||| P.found h index last = h.total index ∧
      (last * P.itemsPerUnit ≤ index → P.found h index last = h.total index) := by
  have hown := hreaches.own_lt hbits
  have hcutLt := hreaches.cut_lt
  rw [found, hreaches.unit_last hone hvalid hbits]
  have hlower := pack_lt (b := P.bitsPerItem) (n := G) fun k _ => total_lt hvalid (last * P.itemsPerUnit + k)
  have hone' := P.bitsPerItem_spec.1
  generalize P.itemsPerUnit - 1 - G = J at hcutLt ⊢
  have hfields : ∀ k < J + 1, (if k = J then lowerTotal h (P.bitsPerItem - 1) k else h.total k) < 2 ^ P.bitsPerItem := by
    intro k _
    split
    · exact (lowerTotal_le h _ k).trans_lt (total_lt hvalid k)
    · exact total_lt hvalid k
  rcases Nat.lt_or_ge index (last * P.itemsPerUnit) with hother | hthere
  · refine ⟨?_, fun hthere => absurd hother (Nat.not_lt.mpr hthere)⟩
    rw [hreaches.bitShift_other hother, hone,
      div_behind (hlower.trans_le (Nat.pow_le_pow_right (by decide) (Nat.le_succ _)))]
    rcases Nat.lt_or_ge J index with hbehind | hbefore
    · have hzero := Nat.div_eq_of_lt ((pack_lt hfields).trans_le
        (Nat.pow_le_pow_right (by decide) (Nat.mul_le_mul_left P.bitsPerItem hbehind)))
      rw [hzero, Nat.zero_mod, Nat.or_zero]
    · rw [pack_field hfields (Nat.lt_succ_iff.mpr hbefore)]
      split
      · refine or_lower (lowerTotal_le h _ index) (lowerTotal_mod h _ index) ?_
        rw [Nat.sub_add_cancel hone']
        exact total_lt hvalid index
      · exact Nat.or_self _
  · obtain ⟨k, rfl⟩ := Nat.exists_eq_add_of_le hthere
    have hkless : k < G := by omega
    have hmul := Nat.mul_le_mul_left P.bitsPerItem (show k + 1 ≤ G from hkless)
    rw [bitShift_before (mul_used_le_iff.mpr hthere) (index_mul_lt hbits hindex), sub_mul_eq, field_below (by omega),
      pack_field (fun j _ => total_lt hvalid (last * P.itemsPerUnit + j)) hkless]
    exact ⟨Nat.or_self _, fun _ => rfl⟩

end Reaches

/-! ## 3. What is visible -/

/-- **Words that fit, or of which one bit is missing**, hold independent counters. -/
theorem independent_of_fits (hbits : P.numItems * P.bitsPerItem ≤ 2 ^ 32)
    (hfits : P.numTotalUnits * P.usedBitsPerUnit ≤ 2 ^ 32 ∨ 2 ^ 32 % P.bitsPerItem = 1) : P.Independent := by
  intro h hvalid index hindex
  have hpos := P.itemsPerUnit_pos
  obtain ⟨last, hunits, hfirst, hbehind⟩ := P.numTotalUnits_spec
  have hmod := Nat.div_add_mod' index P.itemsPerUnit
  have hmodLt := Nat.mod_lt index hpos
  have hnext := Nat.add_one_mul (index / P.itemsPerUnit) P.itemsPerUnit
  have hunit : index / P.itemsPerUnit < P.numTotalUnits := by
    rw [hunits]
    exact Nat.div_lt_of_lt_mul (by rw [Nat.mul_comm]; omega)
  have hplain : ∀ i, (i + 1) * P.usedBitsPerUnit ≤ 2 ^ 32 → h.total index ||| P.found h index i = h.total index ∧
      (i = index / P.itemsPerUnit → P.found h index i = h.total index) := by
    intro i hwhole
    rw [found_plain hvalid hbits hwhole hindex]
    constructor
    · split
      · exact Nat.or_self _
      · exact Nat.or_zero _
    · rintro rfl
      exact if_pos ⟨by omega, by omega⟩
  have heach : ∀ i < P.numTotalUnits, h.total index ||| P.found h index i = h.total index ∧
      (i = index / P.itemsPerUnit → P.found h index i = h.total index) := by
    rcases Nat.lt_or_ge (2 ^ 32) (P.numTotalUnits * P.usedBitsPerUnit) with hbeyond | hinside
    · obtain ⟨last', G, rest, hreaches⟩ := exists_reaches hbits hbeyond
      obtain rfl : last' = last := Nat.succ_injective (hreaches.units.symm.trans hunits)
      have hone : rest = 1 := hreaches.rest_eq.symm.trans (hfits.resolve_left (Nat.not_le.mpr hbeyond))
      intro i hi
      rcases Nat.lt_or_ge i last' with hbefore | hlast
      · exact hplain i ((Nat.mul_le_mul_right _ hbefore).trans hreaches.start_lt.le)
      · obtain rfl : i = last' := by omega
        obtain ⟨hor, hown⟩ := hreaches.found_last hone hvalid hbits hindex
        exact ⟨hor, fun hi => hown (by rw [hi]; omega)⟩
    · intro i hi
      exact hplain i ((Nat.mul_le_mul_right _ hi).trans hinside)
  exact get_eq_of_found P hunit ((heach _ hunit).2 rfl) fun i hi => (heach i hi).1

/-! ## 4. What is seen of other counters -/

theorem total_add (h : History) (j v index : ℕ) :
    (History.add h j v).total index = (if j = index then v else 0) + h.total index := by
  rw [History.total, History.adds, List.map_cons, List.sum_cons, History.total]

theorem valid_add {h : History} {j v : ℕ} (hj : j < P.numItems) (hadds : ∀ p ∈ h.adds, p.1 = j)
    (hsum : v + h.total j ≤ P.maxItemValue) : (History.add h j v).Valid P := by
  refine ⟨fun p hp => ?_, fun index _ => ?_⟩
  · rcases List.mem_cons.mp hp with rfl | hp
    · exact hj
    · exact hadds p hp ▸ hj
  · rw [total_add]
    by_cases hindex : j = index
    · rw [if_pos hindex, ← hindex]
      exact hsum
    · have hzero : h.total index = 0 := by
        refine List.sum_eq_zero fun x hx => ?_
        obtain ⟨p, hp, rfl⟩ := List.mem_map.mp hx
        exact if_neg (hadds p hp ▸ hindex)
      rw [if_neg hindex, hzero]
      exact Nat.zero_le _

theorem not_independent {h : History} {index i n : ℕ} (hvalid : h.Valid P) (hindex : index < P.numItems)
    (hi : i < P.numTotalUnits) (hfound : P.found h index i = 2 ^ n) (htotal : (h.total index).testBit n = false) :
    ¬ P.Independent := by
  intro hindependent
  have hbit := (testBit_get P h index n).mpr ⟨i, hi, by rw [hfound, Nat.testBit_two_pow_self]⟩
  rw [hindependent h hvalid index hindex, htotal] at hbit
  exact Bool.false_ne_true hbit

/-- Counters that count more than zero, if there are more bits than distances. -/
theorem one_le_maxItemValue (hbits : 2 ^ 32 < P.numItems * P.bitsPerItem) : 1 ≤ P.maxItemValue := by
  refine Nat.pos_of_ne_zero fun hzero => ?_
  have hmin : P.minBitsPerItem = 1 := if_pos hzero
  have hwidth : P.bitsPerItem = 1 := by
    rw [bitsPerItem, hmin]
    split
    · rfl
    · rfl
  rw [hwidth, Nat.mul_one] at hbits
  exact absurd P.numItems_lt (Nat.not_lt.mpr hbits.le)

/-- The distance from a word that does not start behind the wrap. -/
theorem bitShift_eq {index i : ℕ} (hle : i * P.usedBitsPerUnit ≤ 2 ^ 32) :
    P.bitShift index i = (index * P.bitsPerItem + (2 ^ 32 - i * P.usedBitsPerUnit)) % 2 ^ 32 := by
  rw [bitShift]
  rcases Nat.lt_or_ge (i * P.usedBitsPerUnit) (2 ^ 32) with hless | hmore
  · rw [Nat.mod_eq_of_lt hless, Nat.add_sub_assoc hless.le, Nat.mod_add_mod]
  · rw [Nat.le_antisymm hle hmore, Nat.mod_self, Nat.sub_zero, Nat.sub_self, Nat.add_mod_right, Nat.mod_mod,
      Nat.add_zero]

/-- **More bits than distances**: what is added to the first counter comes to another one. -/
theorem wrapped_visible (hbits : 2 ^ 32 < P.numItems * P.bitsPerItem) : ¬ P.Independent := by
  have hone := P.bitsPerItem_spec.1
  have hpos := P.itemsPerUnit_pos
  have hused := P.usedBitsPerUnit_le
  -- the counter that has the first bit behind the wrap
  obtain ⟨q, hq⟩ : ∃ q, q = 2 ^ 32 / P.bitsPerItem := ⟨_, rfl⟩
  obtain ⟨rest, hrest⟩ : ∃ rest, rest = 2 ^ 32 % P.bitsPerItem := ⟨_, rfl⟩
  have hdivision : q * P.bitsPerItem + rest = 2 ^ 32 := by
    rw [hq, hrest]
    exact Nat.div_add_mod' _ _
  have hrestLt : rest < P.bitsPerItem := hrest ▸ Nat.mod_lt _ hone
  have hqless : q < P.numItems := by
    rw [hq]
    exact Nat.div_lt_of_lt_mul (by rwa [Nat.mul_comm])
  obtain ⟨last, hunits, -, hbehind⟩ := P.numTotalUnits_spec
  obtain ⟨i, hi⟩ : ∃ i, i = q / P.itemsPerUnit := ⟨_, rfl⟩
  have hunit : i < P.numTotalUnits := by
    rw [hunits, hi]
    exact Nat.div_lt_of_lt_mul (by rw [Nat.mul_comm]; omega)
  have hsplit : i * P.itemsPerUnit + q % P.itemsPerUnit = q := by
    rw [hi]
    exact Nat.div_add_mod' _ _
  have hk := Nat.mod_lt q hpos
  have hstart : i * P.usedBitsPerUnit ≤ q * P.bitsPerItem := mul_used_le_iff.mpr (by omega)
  have hwhole : (q + 1) * P.bitsPerItem ≤ (i + 1) * P.usedBitsPerUnit := by
    rw [usedBitsPerUnit, ← Nat.mul_assoc, Nat.add_one_mul i]
    exact Nat.mul_le_mul_right _ (by omega)
  rw [Nat.add_one_mul, Nat.add_one_mul] at hwhole
  have hle : i * P.usedBitsPerUnit ≤ 2 ^ 32 := by omega
  have hzero : P.bitShift 0 i = 2 ^ 32 - i * P.usedBitsPerUnit := by
    rw [bitShift_eq hle, Nat.zero_mul, Nat.zero_add, Nat.mod_eq_of_lt (by omega)]
  have hthere : P.bitShift q i = q * P.bitsPerItem - i * P.usedBitsPerUnit := by
    rw [bitShift_eq hle, show q * P.bitsPerItem + (2 ^ 32 - i * P.usedBitsPerUnit) =
      q * P.bitsPerItem - i * P.usedBitsPerUnit + 2 ^ 32 by omega, Nat.add_mod_right, Nat.mod_eq_of_lt (by omega)]
  have hrun : P.run (.add .start 0 1) i = 2 ^ P.bitShift 0 i := by
    have hsmall : 2 ^ P.bitShift 0 i < 2 ^ P.usedBitsPerUnit := Nat.pow_lt_pow_right (by decide) (by omega)
    rw [run_eq, History.adds, History.adds, List.map_singleton, List.sum_singleton, Nat.one_mul, Nat.mod_eq_of_lt hsmall,
      Nat.mod_eq_of_lt (hsmall.trans_le (Nat.pow_le_pow_right (by decide) hused))]
  have hvalid : (History.add .start 0 1).Valid P :=
    valid_add P.numItems_pos (fun p hp => absurd hp List.not_mem_nil) (one_le_maxItemValue hbits)
  refine not_independent (n := rest) hvalid hqless hunit ?_ ?_
  · rw [found, hrun, hzero, hthere, Nat.pow_div (by omega) (by decide),
      show 2 ^ 32 - i * P.usedBitsPerUnit - (q * P.bitsPerItem - i * P.usedBitsPerUnit) = rest by omega,
      Nat.mod_eq_of_lt (Nat.pow_lt_pow_right (by decide) hrestLt)]
  · have hqpos : 0 ≠ q := fun hqzero => by
      rw [← hqzero, Nat.zero_mul] at hdivision
      omega
    rw [total_add, if_neg hqpos]
    exact Nat.zero_testBit rest

/-- **If more bits are missing**, the lower halves of two values carry into a bit that their sum has not. -/
theorem truncated_visible {last G rest : ℕ} (hreaches : Reaches P last G rest) (hmissing : rest ≠ 1) :
    ¬ P.Independent := by
  have hcut := hreaches.cut_shift
  have hcutLt := hreaches.cut_lt
  have hother := hreaches.bitShift_other hcutLt
  have hused := hreaches.used_lt
  have hrest := hreaches.rest_lt
  have hrestPos := hreaches.rest_pos
  obtain ⟨hone, -, -, hneeded⟩ := P.bitsPerItem_spec
  generalize P.itemsPerUnit - 1 - G = J at hcut hcutLt hother
  obtain ⟨r, hr⟩ : ∃ r, r = P.bitsPerItem - rest := ⟨_, rfl⟩
  rw [← hother, ← hr] at hcut
  have hpow : 2 ≤ 2 ^ r := Nat.pow_le_pow_right (n := 2) (i := 1) (by decide) (by omega)
  have htwice : 2 ^ r - 1 + (2 ^ r + 1) = 2 ^ (r + 1) := by
    rw [Nat.pow_succ]
    omega
  have hmax : 2 ^ (r + 1) ≤ P.maxItemValue := by
    have hnot : ¬ P.bitsPerItem ∣ 32 := fun hdvd => by
      have heq := Nat.mod_eq_zero_of_dvd (hdvd.trans (Nat.pow_dvd_pow 2 (show 5 ≤ 32 by decide)))
      rw [hreaches.rest_eq] at heq
      omega
    exact (Nat.pow_le_pow_right (by decide) (by omega)).trans (hneeded.resolve_left hnot)
  have hindex : J < P.numItems := hcutLt.trans hreaches.first_lt
  have hfirst : (History.add .start J (2 ^ r + 1)).total J = 2 ^ r + 1 := by
    rw [total_add, if_pos rfl]
    rfl
  have hrun : P.run (.add (.add .start J (2 ^ r + 1)) J (2 ^ r - 1)) last = 2 ^ r * 2 ^ P.bitShift J last := by
    have hsmall : 2 ^ r * 2 ^ P.bitShift J last < 2 ^ 32 := by
      rw [← Nat.pow_add]
      exact Nat.pow_lt_pow_right (by decide) (by omega)
    rw [run_eq, History.adds, History.adds, History.adds, List.map_cons, List.map_singleton, List.sum_cons,
      List.sum_singleton]
    dsimp only
    rw [← hcut, shifted_cut, shifted_cut, Nat.mod_eq_of_lt (show 2 ^ r - 1 < 2 ^ r by omega), Nat.add_mod_left,
      Nat.mod_eq_of_lt (show 1 < 2 ^ r by omega), ← Nat.add_mul, Nat.sub_add_cancel (by omega), Nat.mod_eq_of_lt hsmall]
  have hvalid : (History.add (.add .start J (2 ^ r + 1)) J (2 ^ r - 1)).Valid P := by
    refine valid_add hindex (fun p hp => ?_) ?_
    · rw [List.mem_singleton.mp hp]
    · rw [hfirst, htwice]
      exact hmax
  have hunit : last < P.numTotalUnits := by
    rw [hreaches.units]
    exact Nat.lt_succ_self last
  refine not_independent (n := r) hvalid hindex hunit ?_ ?_
  · rw [found, hrun, Nat.mul_div_cancel _ (Nat.two_pow_pos _),
      Nat.mod_eq_of_lt (Nat.pow_lt_pow_right (by decide) (by omega))]
  · rw [total_add, if_pos rfl, hfirst, htwice]
    exact Nat.testBit_two_pow_of_ne (Nat.succ_ne_self r)

/-- **Counters are independent** if and only if their words do not reach beyond `2 ^ 32` bits, or the counters do not and
one bit is missing to the first of them. -/
theorem independent_iff (P : BitPackedCounter) : P.Independent ↔ P.numItems * P.bitsPerItem ≤ 2 ^ 32 ∧
    (P.numTotalUnits * P.usedBitsPerUnit ≤ 2 ^ 32 ∨ 2 ^ 32 % P.bitsPerItem = 1) := by
  refine ⟨fun h => ?_, fun h => independent_of_fits h.1 h.2⟩
  have hbits : P.numItems * P.bitsPerItem ≤ 2 ^ 32 := Nat.not_lt.mp fun hmore => wrapped_visible hmore h
  refine ⟨hbits, or_iff_not_imp_left.mpr fun hbeyond => ?_⟩
  obtain ⟨last, G, rest, hreaches⟩ := exists_reaches hbits (Nat.not_le.mp hbeyond)
  rw [hreaches.rest_eq]
  by_contra hmissing
  exact truncated_visible hreaches hmissing h

/-- Counters up to three, one more than there are distances for. -/
def tooMany : BitPackedCounter where
  numItems := 2 ^ 31 + 1
  maxItemValue := 3
  preferPowerOfTwoBits := true
  numItems_pos := by decide
  numItems_lt := by decide
  maxItemValue_lt := by decide

/-- What is added to the first of these counters is also added to the last one. -/
theorem tooMany_not_independent : ¬ tooMany.Independent := wrapped_visible (by decide)

end Cccl.BatchMemcpy.BitPackedCounter
