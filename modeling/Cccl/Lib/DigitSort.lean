/-
# Sorting by digits

A stable partition puts the items of each digit together, in the order in which they have been
(`stablePartition`).  If a list is a stable sort by a number below the digit, then its partition by the
digit is a stable sort by both (`stablePartition_isStableSort`): so keys are sorted from the least significant
digit on.

The partition can be written item by item, if it is known where each digit begins (`binStart`): an item
is written behind those of its digit before it (`scatter_eq`).  The positions of the digits do not meet,
and they are all there is.
-/
import Mathlib.Algebra.BigOperators.Group.List.Basic
import Mathlib.Algebra.Ring.Nat
import Mathlib.Data.List.Flatten
import Cccl.Lib.StableSort

namespace Cccl.DigitSort

open StableSort

variable {α : Type*}

/-! ## 1. The partition -/

/-- Items are compared by a number. -/
def below (f : α → ℕ) (a b : α) : Bool := decide (f a < f b)

instance (f : α → ℕ) : IsStrictWeakOrder α fun a b => below f a b = true where
  irrefl a h := lt_irrefl (f a) (of_decide_eq_true h)
  trans _ _ _ hab hbc := decide_eq_true (lt_trans (of_decide_eq_true hab) (of_decide_eq_true hbc))
  incomp_trans a b c hab hbc := by
    simp only [below, decide_eq_true_eq] at hab hbc ⊢
    omega

theorem below_eq_false {f : α → ℕ} {a b : α} : below f a b = false ↔ f b ≤ f a := by
  rw [below, decide_eq_false_iff_not, Nat.not_lt]

theorem equivalent_below {f : α → ℕ} {a b : α} :
    equivalent (below f) a b = true ↔ f b = f a := by
  rw [equivalent_iff, below_eq_false, below_eq_false]
  omega

/-- The items of digit `0`, then those of digit `1`, and so on. -/
def stablePartition (digit : α → ℕ) (digits : ℕ) (l : List α) : List α :=
  (List.range digits).flatMap fun d => l.filter fun a => digit a = d

theorem stablePartition_succ (digit : α → ℕ) (digits : ℕ) (l : List α) :
    stablePartition digit (digits + 1) l =
      stablePartition digit digits l ++ l.filter fun a => digit a = digits := by
  rw [stablePartition, List.range_succ, List.flatMap_append, List.flatMap_singleton]
  rfl

theorem mem_stablePartition {digit : α → ℕ} {digits : ℕ} {l : List α} {a : α} :
    a ∈ stablePartition digit digits l ↔ a ∈ l ∧ digit a < digits := by
  simp only [stablePartition, List.mem_flatMap, List.mem_range, List.mem_filter, decide_eq_true_eq]
  constructor
  · rintro ⟨d, hd, ha, rfl⟩
    exact ⟨ha, hd⟩
  · rintro ⟨ha, hd⟩
    exact ⟨digit a, hd, ha, rfl⟩

theorem filter_stablePartition {digit : α → ℕ} {p : α → Bool} {d : ℕ}
    (hp : ∀ a, p a = true → digit a = d) (l : List α) : ∀ {digits : ℕ}, d < digits →
    (stablePartition digit digits l).filter p = l.filter p
  | digits + 1, hd => by
    rw [stablePartition_succ, List.filter_append, List.filter_filter]
    rcases Nat.lt_or_ge d digits with hlt | hge
    · have hnone : (l.filter fun a => p a && decide (digit a = digits)) = [] := by
        refine List.filter_eq_nil_iff.mpr fun a _ ha => ?_
        rw [Bool.and_eq_true, decide_eq_true_eq] at ha
        have := hp a ha.1
        omega
      rw [filter_stablePartition hp l hlt, hnone, List.append_nil]
    · obtain rfl : d = digits := by omega
      have hnone : (stablePartition digit d l).filter p = [] := by
        refine List.filter_eq_nil_iff.mpr fun a ha hpa => ?_
        exact Nat.lt_irrefl d (hp a hpa ▸ (mem_stablePartition.mp ha).2)
      rw [hnone, List.nil_append]
      refine List.filter_congr fun a _ => ?_
      rw [Bool.eq_iff_iff, Bool.and_eq_true, decide_eq_true_eq]
      exact ⟨fun ha => ha.1, fun ha => ⟨ha, hp a ha⟩⟩

/-- **A pass of a sort by digits.** -/
theorem stablePartition_isStableSort {low digit both : α → ℕ} {digits : ℕ} {input l : List α}
    (h : IsStableSort (below low) input l) (hdigit : ∀ a ∈ l, digit a < digits)
    (hboth : ∀ a b, both a < both b ↔ digit a < digit b ∨ digit a = digit b ∧ low a < low b) :
    IsStableSort (below both) input (stablePartition digit digits l) := by
  have hle : ∀ {a b}, digit a < digit b ∨ digit a = digit b ∧ low a ≤ low b → both a ≤ both b := by
    intro a b hab
    refine Nat.not_lt.mp fun hlt => ?_
    rw [hboth] at hlt
    omega
  refine ⟨?_, fun k => ?_⟩
  · rw [stablePartition, List.pairwise_flatMap]
    refine ⟨fun d _ => ?_, ?_⟩
    · -- one digit: in the order of the lower number
      refine (h.sorted.filter _).imp_of_mem fun {a b} ha hb hab => ?_
      have hda : digit a = d := of_decide_eq_true (List.mem_filter.mp ha).2
      have hdb : digit b = d := of_decide_eq_true (List.mem_filter.mp hb).2
      rw [below_eq_false] at hab ⊢
      exact hle (Or.inr ⟨hda.trans hdb.symm, hab⟩)
    · refine List.pairwise_lt_range.imp fun {d e} hde a ha b hb => ?_
      have hda : digit a = d := of_decide_eq_true (List.mem_filter.mp ha).2
      have hdb : digit b = e := of_decide_eq_true (List.mem_filter.mp hb).2
      rw [below_eq_false]
      exact hle (Or.inl (by omega))
  · -- a class is within one digit, and within a class of the lower number
    have hclass : ∀ a, equivalent (below both) k a = true ↔
        digit a = digit k ∧ equivalent (below low) k a = true := by
      intro a
      rw [equivalent_below, equivalent_below]
      have hka := hboth k a
      have hak := hboth a k
      omega
    have hsplit : ∀ m : List α, m.filter (equivalent (below both) k) =
        (m.filter (equivalent (below low) k)).filter fun a => digit a = digit k := by
      intro m
      rw [List.filter_filter]
      refine List.filter_congr fun a _ => ?_
      rw [Bool.eq_iff_iff, hclass, Bool.and_eq_true, decide_eq_true_eq]
    have hpart : (stablePartition digit digits l).filter (equivalent (below both) k) =
        l.filter (equivalent (below both) k) := by
      rcases Nat.lt_or_ge (digit k) digits with hlt | hge
      · exact filter_stablePartition (fun a ha => ((hclass a).mp ha).1) l hlt
      · have hnone : ∀ a ∈ l, ¬ equivalent (below both) k a = true := fun a ha hka => by
          have hlt := hdigit a ha
          rw [((hclass a).mp hka).1] at hlt
          omega
        rw [List.filter_eq_nil_iff.mpr hnone, List.filter_eq_nil_iff.mpr fun a ha =>
          hnone a (mem_stablePartition.mp ha).1]
    rw [hpart, hsplit, hsplit, h.stable k]

/-! ## 2. Where the digits begin -/

/-- The position of the first item of a digit in the partition. -/
def binStart (digit : α → ℕ) (l : List α) (d : ℕ) : ℕ := l.countP fun a => digit a < d

/-- How many items of a digit there are. -/
def binCount (digit : α → ℕ) (l : List α) (d : ℕ) : ℕ := l.countP fun a => digit a = d

theorem binStart_succ (digit : α → ℕ) (d : ℕ) : ∀ l : List α,
    binStart digit l (d + 1) = binStart digit l d + binCount digit l d
  | [] => rfl
  | a :: l => by
    have ih := binStart_succ digit d l
    simp only [binStart, binCount, List.countP_cons, decide_eq_true_eq] at ih ⊢
    split_ifs
    all_goals omega

theorem binStart_eq_sum (digit : α → ℕ) (l : List α) : ∀ d,
    binStart digit l d = ((List.range d).map (binCount digit l)).sum
  | 0 => by
    rw [binStart, List.range_zero, List.map_nil, List.sum_nil, List.countP_eq_zero]
    simp
  | d + 1 => by
    rw [binStart_succ, binStart_eq_sum digit l d, List.range_succ, List.map_append, List.sum_append,
      List.map_singleton, List.sum_singleton]

theorem binStart_mono (digit : α → ℕ) (l : List α) {d e : ℕ} (h : d ≤ e) :
    binStart digit l d ≤ binStart digit l e := by
  refine List.countP_mono_left fun a _ ha => ?_
  rw [decide_eq_true_eq] at ha ⊢
  omega

theorem length_filter_digit (digit : α → ℕ) (l : List α) (d : ℕ) :
    (l.filter fun a => digit a = d).length = binCount digit l d := List.countP_eq_length_filter.symm

theorem length_stablePartition (digit : α → ℕ) (l : List α) : ∀ digits,
    (stablePartition digit digits l).length = binStart digit l digits
  | 0 => by
    rw [binStart, List.countP_eq_zero.mpr (by simp)]
    rfl
  | digits + 1 => by
    rw [stablePartition_succ, List.length_append, length_stablePartition digit l digits,
      length_filter_digit, binStart_succ]

theorem binStart_eq_length {digit : α → ℕ} {digits : ℕ} {l : List α}
    (h : ∀ a ∈ l, digit a < digits) : binStart digit l digits = l.length :=
  List.countP_eq_length.mpr fun a ha => decide_eq_true (h a ha)

/-- **The items of a digit in the partition.** -/
theorem getElem?_stablePartition (digit : α → ℕ) (l : List α) {d j : ℕ}
    (hj : j < binCount digit l d) : ∀ {digits : ℕ}, d < digits →
    (stablePartition digit digits l)[binStart digit l d + j]? = (l.filter fun a => digit a = d)[j]?
  | digits + 1, hd => by
    have hlen := length_stablePartition digit l digits
    rw [stablePartition_succ]
    rcases Nat.lt_or_ge d digits with hlt | hge
    · have hle := binStart_mono digit l (d := d + 1) (e := digits) hlt
      rw [binStart_succ] at hle
      rw [List.getElem?_append_left (by omega), getElem?_stablePartition digit l hj hlt]
    · obtain rfl : d = digits := by omega
      rw [List.getElem?_append_right (by omega), hlen, Nat.add_sub_cancel_left]

theorem exists_digit (digit : α → ℕ) (l : List α) {q : ℕ} : ∀ {digits : ℕ},
    q < binStart digit l digits →
    ∃ d < digits, ∃ j < binCount digit l d, q = binStart digit l d + j
  | 0, hq => by
    rw [binStart, List.countP_eq_zero.mpr (by simp)] at hq
    omega
  | digits + 1, hq => by
    rcases Nat.lt_or_ge q (binStart digit l digits) with hlt | hge
    · obtain ⟨d, hd, j, hj, heq⟩ := exists_digit digit l hlt
      exact ⟨d, by omega, j, hj, heq⟩
    · rw [binStart_succ] at hq
      exact ⟨digits, Nat.lt_succ_self _, q - binStart digit l digits, by omega, by omega⟩

theorem stablePartition_map {β : Type*} (f : α → β) (digit : β → ℕ) (l : List α) : ∀ digits,
    stablePartition digit digits (l.map f) =
      (stablePartition (fun a => digit (f a)) digits l).map f
  | 0 => rfl
  | digits + 1 => by
    rw [stablePartition_succ, stablePartition_succ, stablePartition_map f digit l digits,
      List.map_append, List.filter_map]
    rfl

/-! ## 3. Writing the partition item by item -/

/-- Each item is written behind the items of its digit that have been before it.  An item has its digit
with it.  Outside of the output there is no result. -/
def scatter : List (ℕ × α) → (ℕ → ℕ) → List (Option α) → Option (List (Option α))
  | [], _, out => some out
  | (d, a) :: l, bins, out =>
    if bins d < out.length then
      scatter l (Function.update bins d (bins d + 1)) (out.set (bins d) (some a))
    else none

theorem scatter_append : ∀ (l l' : List (ℕ × α)) (bins : ℕ → ℕ) (out : List (Option α)),
    scatter (l ++ l') bins out =
      (scatter l bins out).bind (scatter l' fun d => bins d + binCount Prod.fst l d)
  | [], l', bins, out => rfl
  | (d, a) :: l, l', bins, out => by
    rw [List.cons_append, scatter, scatter]
    split
    · rw [scatter_append l l']
      congr 2
      funext e
      rw [binCount, binCount, List.countP_cons]
      rcases Classical.em (e = d) with rfl | hne
      · rw [Function.update_self, decide_eq_true rfl, if_pos rfl]
        omega
      · rw [Function.update_of_ne hne, if_neg (by simpa using Ne.symm hne), Nat.add_zero]
    · rfl

theorem binCount_append (digit : α → ℕ) (l l' : List α) (d : ℕ) :
    binCount digit (l ++ l') d = binCount digit l d + binCount digit l' d := List.countP_append

theorem binCount_singleton (digit : α → ℕ) (a : α) (d : ℕ) :
    binCount digit [a] d = if digit a = d then 1 else 0 := by
  rw [binCount, List.countP_singleton]
  simp only [decide_eq_true_eq]

/-- The positions of a digit are before those of the next ones. -/
theorem digit_eq_of_position {digit : α → ℕ} {l : List α} {d e i j : ℕ}
    (hi : i < binCount digit l d) (hj : j < binCount digit l e)
    (heq : binStart digit l d + i = binStart digit l e + j) : d = e := by
  rcases Nat.lt_trichotomy d e with hlt | rfl | hgt
  · have := binStart_mono digit l (d := d + 1) (e := e) hlt
    rw [binStart_succ] at this
    omega
  · rfl
  · have := binStart_mono digit l (d := e + 1) (e := d) hgt
    rw [binStart_succ] at this
    omega

theorem position_lt {digit : α → ℕ} {l : List α} {d j : ℕ} (hj : j < binCount digit l d) :
    binStart digit l d + j < l.length := by
  have hlen : binStart digit l (d + 1) ≤ l.length := List.countP_le_length
  rw [binStart_succ] at hlen
  omega

/-- What has been written when the items `pre` have been. -/
structure Scattered (l pre : List (ℕ × α)) (out : List (Option α)) : Prop where
  length : out.length = l.length
  written : ∀ d j, j < binCount Prod.fst pre d →
    out[binStart Prod.fst l d + j]? = ((pre.filter fun a => a.1 = d)[j]?).map fun a => some a.2

/-- **An item is written behind those of its digit.** -/
theorem Scattered.set {l pre suf : List (ℕ × α)} {out : List (Option α)} {d : ℕ} {a : α}
    (h : Scattered l pre out) (hl : pre ++ (d, a) :: suf = l) :
    Scattered l (pre ++ [(d, a)])
      (out.set (binStart Prod.fst l d + binCount Prod.fst pre d) (some a)) := by
  have hcount : ∀ e, binCount Prod.fst (pre ++ [(d, a)]) e ≤ binCount Prod.fst l e := fun e => by
    have hpre : l = pre ++ [(d, a)] ++ suf := by rw [← hl, ← List.append_cons]
    rw [hpre, binCount_append Prod.fst (pre ++ [(d, a)]) suf]
    exact Nat.le_add_right _ _
  have hlast : binCount Prod.fst pre d < binCount Prod.fst (pre ++ [(d, a)]) d := by
    rw [binCount_append, binCount_singleton, if_pos rfl]
    exact Nat.lt_succ_self _
  refine ⟨by rw [List.length_set, h.length], fun e j hj => ?_⟩
  rw [List.filter_append, List.filter_singleton]
  rcases Nat.lt_or_ge j (binCount Prod.fst pre e) with hlt | hge
  · -- a position that has been written before
    have hne : binStart Prod.fst l d + binCount Prod.fst pre d ≠ binStart Prod.fst l e + j := by
      intro heq
      obtain rfl := digit_eq_of_position (hlast.trans_le (hcount d)) (hj.trans_le (hcount e)) heq
      omega
    rw [List.getElem?_set_ne hne, h.written e j hlt,
      List.getElem?_append_left (by rwa [length_filter_digit])]
  · rw [binCount_append, binCount_singleton] at hj
    split at hj
    · rename_i hde
      obtain rfl : d = e := hde
      obtain rfl : j = binCount Prod.fst pre d := by omega
      have hpos : binStart Prod.fst l d + binCount Prod.fst pre d < out.length := by
        rw [h.length]
        exact position_lt (hlast.trans_le (hcount d))
      rw [List.getElem?_set_self hpos, List.getElem?_append_right (by rw [length_filter_digit]),
        length_filter_digit, Nat.sub_self]
      simp
    · omega

theorem Scattered.scatter {l : List (ℕ × α)} : ∀ (suf : List (ℕ × α)) {pre : List (ℕ × α)}
    {out : List (Option α)}, pre ++ suf = l → Scattered l pre out →
    ∃ out', scatter suf (fun d => binStart Prod.fst l d + binCount Prod.fst pre d) out = some out' ∧
      Scattered l l out'
  | [], pre, out, hl, h => by
    rw [List.append_nil] at hl
    exact ⟨out, rfl, hl ▸ h⟩
  | (d, a) :: suf, pre, out, hl, h => by
    have hpos : binStart Prod.fst l d + binCount Prod.fst pre d < out.length := by
      rw [h.length]
      refine position_lt ?_
      rw [← hl, List.append_cons, binCount_append, binCount_append, binCount_singleton, if_pos rfl]
      omega
    obtain ⟨out', hout', hwritten⟩ :=
      Scattered.scatter suf (by rw [← hl, ← List.append_cons]) (h.set hl)
    refine ⟨out', ?_, hwritten⟩
    rw [DigitSort.scatter, if_pos hpos, ← hout']
    congr 1
    funext e
    rw [binCount_append, binCount_singleton]
    rcases Classical.em (d = e) with rfl | hne
    · rw [Function.update_self, if_pos rfl, Nat.add_assoc]
    · rw [Function.update_of_ne (Ne.symm hne), if_neg hne, Nat.add_zero]

/-- **Written item by item, the output is the partition.** -/
theorem scatter_eq {l : List (ℕ × α)} (digits : ℕ) {out : List (Option α)}
    (hdigits : ∀ a ∈ l, a.1 < digits) (hout : out.length = l.length) :
    scatter l (binStart Prod.fst l) out =
      some ((stablePartition Prod.fst digits l).map fun a => some a.2) := by
  have hinit : Scattered l [] out := ⟨hout, fun d j hj => by simp [binCount] at hj⟩
  obtain ⟨out', hout', hall⟩ := Scattered.scatter l (List.nil_append l) hinit
  have hbins : (fun d => binStart Prod.fst l d + binCount Prod.fst ([] : List (ℕ × α)) d) =
      binStart Prod.fst l := by
    funext d
    rw [binCount, List.countP_nil, Nat.add_zero]
  rw [hbins] at hout'
  rw [hout']
  have hlen : (stablePartition Prod.fst digits l).length = l.length := by
    rw [length_stablePartition, binStart_eq_length hdigits]
  refine congrArg some (List.ext_getElem? fun q => ?_)
  rcases Nat.lt_or_ge q l.length with hlt | hge
  · obtain ⟨d, hd, j, hj, rfl⟩ := exists_digit Prod.fst l
      (by rwa [← binStart_eq_length hdigits] at hlt)
    rw [hall.written d j hj, List.getElem?_map, getElem?_stablePartition Prod.fst l hj hd]
  · rw [List.getElem?_eq_none (by rw [hall.length]; exact hge), List.getElem?_eq_none]
    rw [List.length_map, hlen]
    exact hge

/-! ## 4. Digits of numbers -/

/-- The bits of a number from `b` on, `w` of them. -/
def bitField (b w x : ℕ) : ℕ := x / 2 ^ b % 2 ^ w

theorem bitField_lt (b w x : ℕ) : bitField b w x < 2 ^ w := Nat.mod_lt _ (Nat.two_pow_pos w)

theorem bitField_add (b v w x : ℕ) :
    bitField b (v + w) x = bitField b v x + 2 ^ v * bitField (b + v) w x := by
  rw [bitField, Nat.pow_add, Nat.mod_mul, Nat.div_div_eq_div_mul, ← Nat.pow_add]
  rfl

theorem upper_lt_iff {n low low' high high' : ℕ} (hlow : low < n) (hlow' : low' < n) :
    low + n * high < low' + n * high' ↔ high < high' ∨ high = high' ∧ low < low' := by
  rcases Nat.lt_trichotomy high high' with hlt | heq | hgt
  · have hmul := Nat.mul_le_mul_left n (Nat.succ_le_of_lt hlt)
    rw [Nat.mul_succ] at hmul
    omega
  · rw [heq]
    omega
  · have hmul := Nat.mul_le_mul_left n (Nat.succ_le_of_lt hgt)
    rw [Nat.mul_succ] at hmul
    omega

theorem bitField_add_lt (b v w x y : ℕ) : bitField b (v + w) x < bitField b (v + w) y ↔
    bitField (b + v) w x < bitField (b + v) w y ∨
      bitField (b + v) w x = bitField (b + v) w y ∧ bitField b v x < bitField b v y := by
  rw [bitField_add, bitField_add]
  exact upper_lt_iff (bitField_lt b v x) (bitField_lt b v y)

end Cccl.DigitSort
