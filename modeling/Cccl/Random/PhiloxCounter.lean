/-
# The counter of `philox_engine`

A big integer of some words, the lowest first.  `__increment_counter` adds one, `discard` any number.

A carry is recognised by a word that has become smaller.  This is right unless all bits of the word that is
added are set and a carry comes in: then the word stays as it was, and the carry out of it is lost.  So the sum
is right if and only if there is no such word below the highest one (`value_addIncrement_iff`).
-/
import Mathlib.Data.Nat.Digits.Defs

namespace Cccl.Random

/-! ## 1. The operations -/

/-- The counter as a number. -/
def counterValue (w : ℕ) (xs : List ℕ) : ℕ := Nat.ofDigits (2 ^ w) xs

def incrementCounter (w : ℕ) : List ℕ → List ℕ
  | [] => []
  | x :: xs =>
    let new := (x + 1) % 2 ^ w
    if new ≠ 0 then new :: xs else new :: incrementCounter w xs

/-- The loop of `discard` over the words of the counter.  From 64 bits on, nothing is left to add. -/
def addIncrement (w : ℕ) : List ℕ → ℕ → ℕ → List ℕ
  | [], _, _ => []
  | x :: xs, increment, carry =>
    if increment = 0 ∧ carry = 0 then x :: xs
    else
      let new := (x + increment % 2 ^ w + carry) % 2 ^ w
      new :: addIncrement w xs (if w < 64 then increment >>> w else 0) (if new < x then 1 else 0)

/-- **No carry is lost**: where all bits of the added word are set, none comes in. -/
def CarriesKept (w : ℕ) (words value increment carry : ℕ) : Prop :=
  ∀ i, i + 1 < words → ¬ (increment / 2 ^ (w * i) % 2 ^ w = 2 ^ w - 1 ∧
    2 ^ (w * i) ≤ value % 2 ^ (w * i) + increment % 2 ^ (w * i) + carry)

/-! ## 2. Values -/

variable {w : ℕ} {xs : List ℕ}

theorem counterValue_cons (x : ℕ) (xs : List ℕ) :
    counterValue w (x :: xs) = x + 2 ^ w * counterValue w xs := rfl

theorem counterValue_lt (hw : 0 < w) (h : ∀ x ∈ xs, x < 2 ^ w) : counterValue w xs < 2 ^ (w * xs.length) := by
  have hlt := Nat.ofDigits_lt_base_pow_length (Nat.one_lt_two_pow hw.ne') h
  rwa [← Nat.pow_mul] at hlt

/-- **The value determines the words.** -/
theorem eq_of_counterValue (hw : 0 < w) {ys : List ℕ} (hlength : xs.length = ys.length)
    (hx : ∀ x ∈ xs, x < 2 ^ w) (hy : ∀ y ∈ ys, y < 2 ^ w) (h : counterValue w xs = counterValue w ys) :
    xs = ys :=
  Nat.ofDigits_inj_of_len_eq (Nat.one_lt_two_pow hw.ne') hlength hx hy h

theorem length_incrementCounter : ∀ xs : List ℕ, (incrementCounter w xs).length = xs.length
  | [] => rfl
  | x :: xs => by
    simp only [incrementCounter]
    split
    · rfl
    · rw [List.length_cons, List.length_cons, length_incrementCounter xs]

theorem incrementCounter_lt : ∀ {xs : List ℕ}, (∀ x ∈ xs, x < 2 ^ w) → ∀ y ∈ incrementCounter w xs, y < 2 ^ w
  | [], _, y, hy => absurd hy (List.not_mem_nil)
  | x :: xs, h, y, hy => by
    have hnew : (x + 1) % 2 ^ w < 2 ^ w := Nat.mod_lt _ (Nat.two_pow_pos w)
    obtain ⟨-, htail⟩ := List.forall_mem_cons.mp h
    simp only [incrementCounter] at hy
    split at hy
    · rcases List.mem_cons.mp hy with rfl | hy
      · exact hnew
      · exact htail y hy
    · rcases List.mem_cons.mp hy with rfl | hy
      · exact hnew
      · exact incrementCounter_lt htail y hy

theorem mod_words (a b n : ℕ) (ha : a < 2 ^ w) :
    (a + 2 ^ w * b) % 2 ^ (w * (n + 1)) = a + 2 ^ w * (b % 2 ^ (w * n)) := by
  have hpow : 2 ^ (w * (n + 1)) = 2 ^ w * 2 ^ (w * n) := by rw [← Nat.pow_add, Nat.mul_succ, Nat.add_comm]
  rw [hpow, Nat.mod_mul, Nat.add_mul_mod_self_left, Nat.mod_eq_of_lt ha, Nat.add_mul_div_left _ _ (Nat.two_pow_pos w),
    Nat.div_eq_of_lt ha, Nat.zero_add]

/-- **`__increment_counter` adds one.** -/
theorem counterValue_incrementCounter (hw : 0 < w) : ∀ {xs : List ℕ}, (∀ x ∈ xs, x < 2 ^ w) →
    counterValue w (incrementCounter w xs) = (counterValue w xs + 1) % 2 ^ (w * xs.length)
  | [], _ => by rw [List.length_nil, Nat.mul_zero, Nat.pow_zero, Nat.mod_one]; rfl
  | x :: xs, h => by
    obtain ⟨hx, htail⟩ := List.forall_mem_cons.mp h
    have hvalue := counterValue_lt hw htail
    have hsum : counterValue w (x :: xs) + 1 = x + 1 + 2 ^ w * counterValue w xs := by
      rw [counterValue_cons]
      ring
    rw [hsum, List.length_cons]
    simp only [incrementCounter]
    by_cases hlast : x + 1 < 2 ^ w
    · rw [Nat.mod_eq_of_lt hlast, if_pos (Nat.succ_ne_zero x), mod_words _ _ _ hlast, Nat.mod_eq_of_lt hvalue,
        counterValue_cons]
    · have hfull : x + 1 = 2 ^ w := by omega
      have hcarry : 2 ^ w + 2 ^ w * counterValue w xs = 0 + 2 ^ w * (counterValue w xs + 1) := by ring
      rw [hfull, Nat.mod_self, if_neg (not_not_intro rfl), counterValue_cons,
        counterValue_incrementCounter hw htail, hcarry, mod_words _ _ _ (Nat.two_pow_pos w)]

/-! ## 3. Carries -/

theorem length_addIncrement : ∀ (xs : List ℕ) (increment carry : ℕ),
    (addIncrement w xs increment carry).length = xs.length
  | [], _, _ => rfl
  | x :: xs, increment, carry => by
    simp only [addIncrement]
    split
    · rfl
    · rw [List.length_cons, List.length_cons, length_addIncrement xs]

theorem addIncrement_lt : ∀ {xs : List ℕ} {increment carry : ℕ}, (∀ x ∈ xs, x < 2 ^ w) →
    ∀ y ∈ addIncrement w xs increment carry, y < 2 ^ w
  | [], _, _, _, y, hy => absurd hy (List.not_mem_nil)
  | x :: xs, increment, carry, h, y, hy => by
    obtain ⟨-, htail⟩ := List.forall_mem_cons.mp h
    simp only [addIncrement] at hy
    split at hy
    · exact h y hy
    · rcases List.mem_cons.mp hy with rfl | hy
      · exact Nat.mod_lt _ (Nat.two_pow_pos w)
      · exact addIncrement_lt htail y hy

theorem addIncrement_cons_mod {x increment carry : ℕ} (hx : x < 2 ^ w) :
    counterValue w (addIncrement w (x :: xs) increment carry) % 2 ^ w = (x + increment + carry) % 2 ^ w := by
  have hsame : (x + increment % 2 ^ w + carry) % 2 ^ w = (x + increment + carry) % 2 ^ w := by
    rw [Nat.add_right_comm, Nat.add_mod_mod, Nat.add_right_comm]
  simp only [addIncrement]
  split
  · rename_i hzero
    obtain ⟨rfl, rfl⟩ := hzero
    rw [counterValue_cons, Nat.add_mul_mod_self_left]
    rfl
  · rw [counterValue_cons, Nat.add_mul_mod_self_left, Nat.mod_mod, hsame]

theorem shift_word {increment : ℕ} (h : increment < 2 ^ 64) :
    (if w < 64 then increment >>> w else 0) = increment / 2 ^ w := by
  split
  · exact Nat.shiftRight_eq_div_pow _ _
  · rename_i hwide
    have hle : 2 ^ 64 ≤ 2 ^ w := Nat.pow_le_pow_right (by decide) (Nat.not_lt.mp hwide)
    exact (Nat.div_eq_of_lt (h.trans_le hle)).symm

/-- **From zero**, the words of the increment are the words of the counter. -/
theorem addIncrement_zero : ∀ (n : ℕ) {increment : ℕ}, increment < 2 ^ 64 →
    addIncrement w (List.replicate n 0) increment 0 =
      (List.range n).map fun i => increment / 2 ^ (w * i) % 2 ^ w
  | 0, _, _ => rfl
  | n + 1, increment, h => by
    have hrest := addIncrement_zero n ((Nat.div_le_self increment (2 ^ w)).trans_lt h)
    have hword : ∀ i, increment / 2 ^ w / 2 ^ (w * i) = increment / 2 ^ (w * (i + 1)) := fun i => by
      rw [Nat.div_div_eq_div_mul, ← Nat.pow_add, Nat.mul_succ, Nat.add_comm]
    rw [List.range_succ_eq_map, List.map_cons, List.map_map, Nat.mul_zero, Nat.pow_zero, Nat.div_one,
      List.replicate_succ, addIncrement, shift_word h]
    split
    · rename_i hnone
      obtain ⟨rfl, -⟩ := hnone
      rw [Nat.zero_mod, List.cons_inj_right]
      refine (List.eq_replicate_iff.mpr ⟨by rw [List.length_map, List.length_range], fun v hv => ?_⟩).symm
      obtain ⟨i, -, rfl⟩ := List.mem_map.mp hv
      rw [Function.comp_apply, Nat.zero_div, Nat.zero_mod]
    · dsimp only
      rw [Nat.zero_add, Nat.add_zero, Nat.mod_mod, if_neg (Nat.not_lt_zero _), hrest]
      refine congrArg _ (List.map_congr_left fun i _ => ?_)
      rw [hword]
      rfl

/-- A carry is recognised, but where all bits of the added word are set and one comes in. -/
theorem carry_eq {x a carry : ℕ} (hx : x < 2 ^ w) (ha : a < 2 ^ w) (hcarry : carry ≤ 1)
    (h : ¬ (a = 2 ^ w - 1 ∧ carry = 1)) :
    (if (x + a + carry) % 2 ^ w < x then 1 else 0) = (x + a + carry) / 2 ^ w := by
  by_cases hover : x + a + carry < 2 ^ w
  · rw [Nat.mod_eq_of_lt hover, Nat.div_eq_of_lt hover, if_neg (by omega)]
  · have hmod : (x + a + carry) % 2 ^ w = x + a + carry - 2 ^ w := by
      rw [Nat.mod_eq_sub_mod (by omega), Nat.mod_eq_of_lt (by omega)]
    have hdiv : (x + a + carry) / 2 ^ w = 1 := Nat.div_eq_of_lt_le (by omega) (by omega)
    rw [hmod, hdiv, if_pos (by omega)]

theorem carry_lost {x : ℕ} (hx : x < 2 ^ w) :
    (x + (2 ^ w - 1) + 1) % 2 ^ w = x ∧ (x + (2 ^ w - 1) + 1) / 2 ^ w = 1 := by
  have hpos := Nat.two_pow_pos w
  have hsum : x + (2 ^ w - 1) + 1 = x + 2 ^ w := by omega
  rw [hsum, Nat.add_mod_right, Nat.mod_eq_of_lt hx, Nat.add_div_right _ hpos, Nat.div_eq_of_lt hx]
  exact ⟨rfl, rfl⟩

theorem split_word (v : ℕ) : v = v % 2 ^ w + 2 ^ w * (v / 2 ^ w) := (Nat.mod_add_div v (2 ^ w)).symm

theorem carry_succ {x value increment carry i : ℕ} (hx : x < 2 ^ w) :
    2 ^ (w * (i + 1)) ≤ (x + 2 ^ w * value) % 2 ^ (w * (i + 1)) + increment % 2 ^ (w * (i + 1)) + carry ↔
      2 ^ (w * i) ≤ value % 2 ^ (w * i) + increment / 2 ^ w % 2 ^ (w * i) +
        (x + increment % 2 ^ w + carry) / 2 ^ w := by
  have hpos := Nat.two_pow_pos w
  have hincrement : increment % 2 ^ (w * (i + 1)) =
      increment % 2 ^ w + 2 ^ w * (increment / 2 ^ w % 2 ^ (w * i)) := by
    conv_lhs => rw [split_word (w := w) increment]
    rw [mod_words _ _ _ (Nat.mod_lt _ hpos)]
  have hpow : 2 ^ (w * (i + 1)) = 2 ^ (w * i) * 2 ^ w := by rw [← Nat.pow_add, Nat.mul_succ]
  have hsum : x + 2 ^ w * (value % 2 ^ (w * i)) +
      (increment % 2 ^ w + 2 ^ w * (increment / 2 ^ w % 2 ^ (w * i))) + carry =
        x + increment % 2 ^ w + carry + 2 ^ w * (value % 2 ^ (w * i) + increment / 2 ^ w % 2 ^ (w * i)) := by
    ring
  rw [mod_words _ _ _ hx, hincrement, hsum, hpow, ← Nat.le_div_iff_mul_le hpos, Nat.add_mul_div_left _ _ hpos,
    Nat.add_comm]

theorem carriesKept_succ {n x value increment carry : ℕ} (hx : x < 2 ^ w) (hcarry : carry ≤ 1) :
    CarriesKept w (n + 1) (x + 2 ^ w * value) increment carry ↔
      (0 < n → ¬ (increment % 2 ^ w = 2 ^ w - 1 ∧ carry = 1)) ∧
        CarriesKept w n value (increment / 2 ^ w) ((x + increment % 2 ^ w + carry) / 2 ^ w) := by
  have hword : ∀ i, increment / 2 ^ w / 2 ^ (w * i) = increment / 2 ^ (w * (i + 1)) := fun i => by
    rw [Nat.div_div_eq_div_mul, ← Nat.pow_add, Nat.mul_succ, Nat.add_comm]
  have hlowest : 2 ^ (w * 0) ≤ (x + 2 ^ w * value) % 2 ^ (w * 0) + increment % 2 ^ (w * 0) + carry ↔
      carry = 1 := by
    rw [Nat.mul_zero, Nat.pow_zero, Nat.mod_one, Nat.mod_one]
    omega
  constructor
  · intro h
    refine ⟨fun hn hlost => ?_, fun i hi hlost => ?_⟩
    · refine h 0 (by omega) ⟨?_, hlowest.mpr hlost.2⟩
      rw [Nat.mul_zero, Nat.pow_zero, Nat.div_one]
      exact hlost.1
    · refine h (i + 1) (by omega) ⟨?_, (carry_succ hx).mpr hlost.2⟩
      rw [← hword]
      exact hlost.1
  · rintro ⟨hfirst, hrest⟩ i hi hlost
    cases i with
    | zero =>
      rw [Nat.mul_zero, Nat.pow_zero, Nat.div_one] at hlost
      exact hfirst (by omega) ⟨hlost.1, hlowest.mp (by rw [Nat.mul_zero, Nat.pow_zero]; exact hlost.2)⟩
    | succ i =>
      refine hrest i (by omega) ⟨?_, (carry_succ hx).mp hlost.2⟩
      rw [hword]
      exact hlost.1

theorem ne_mod_succ {m : ℕ} (hm : 1 < m) (n : ℕ) : n % m ≠ (n + 1) % m := by
  intro h
  have hsub : (n + 1 - n) % m = 0 := Nat.sub_mod_eq_zero_of_mod_eq h.symm
  rw [Nat.add_sub_cancel_left, Nat.mod_eq_of_lt hm] at hsub
  exact absurd hsub (by decide)

/-- **When the sum is right.** -/
theorem value_addIncrement_iff (hw : 0 < w) : ∀ {xs : List ℕ} {increment carry : ℕ}, (∀ x ∈ xs, x < 2 ^ w) →
    increment < 2 ^ 64 → carry ≤ 1 →
      (counterValue w (addIncrement w xs increment carry) =
          (counterValue w xs + increment + carry) % 2 ^ (w * xs.length) ↔
        CarriesKept w xs.length (counterValue w xs) increment carry)
  | [], _, _, _, _, _ => by
    refine iff_of_true ?_ fun i hi => absurd hi (Nat.not_lt_zero _)
    rw [List.length_nil, Nat.mul_zero, Nat.pow_zero, Nat.mod_one]
    rfl
  | x :: xs, increment, carry, h, hincrement, hcarry => by
    obtain ⟨hx, htail⟩ := List.forall_mem_cons.mp h
    have hpos := Nat.two_pow_pos w
    have hone : 1 < 2 ^ w := Nat.one_lt_two_pow hw.ne'
    have hvalue := counterValue_lt hw h
    by_cases hnone : increment = 0 ∧ carry = 0
    · obtain ⟨rfl, rfl⟩ := hnone
      refine iff_of_true ?_ fun i _ hlost => ?_
      · rw [addIncrement, if_pos ⟨rfl, rfl⟩, Nat.add_zero, Nat.mod_eq_of_lt hvalue]
      · rw [Nat.zero_div, Nat.zero_mod] at hlost
        omega
    have hshift := shift_word (w := w) hincrement
    have hless : increment / 2 ^ w < 2 ^ 64 := (Nat.div_le_self _ _).trans_lt hincrement
    obtain ⟨s, hs⟩ : ∃ s, x + increment % 2 ^ w + carry = s := ⟨_, rfl⟩
    have ha : increment % 2 ^ w < 2 ^ w := Nat.mod_lt _ hpos
    have hs1 : s / 2 ^ w ≤ 1 := by
      have hlt : s / 2 ^ w < 2 := by
        rw [Nat.div_lt_iff_lt_mul hpos]
        omega
      omega
    -- the sum of the whole counter, as a word and the sum of the others
    have hsum : counterValue w (x :: xs) + increment + carry =
        s % 2 ^ w + 2 ^ w * (counterValue w xs + increment / 2 ^ w + s / 2 ^ w) := by
      have hinc := Nat.mod_add_div increment (2 ^ w)
      have hcut := Nat.mod_add_div s (2 ^ w)
      rw [counterValue_cons, Nat.mul_add, Nat.mul_add]
      omega
    rw [hsum, List.length_cons, mod_words _ _ _ (Nat.mod_lt _ hpos), addIncrement, if_neg hnone, hshift]
    dsimp only
    rw [hs, counterValue_cons, Nat.add_left_cancel_iff, Nat.mul_right_inj hpos.ne', counterValue_cons,
      carriesKept_succ hx hcarry, hs]
    by_cases hlost : increment % 2 ^ w = 2 ^ w - 1 ∧ carry = 1
    swap
    · have hkept := carry_eq hx ha hcarry hlost
      rw [hs] at hkept
      rw [hkept, value_addIncrement_iff hw htail hless hs1]
      exact ⟨fun h => ⟨fun _ => hlost, h⟩, fun h => h.2⟩
    obtain ⟨hfull, rfl⟩ := hlost
    have hstay := carry_lost hx
    rw [← hfull, hs] at hstay
    rw [hstay.1, hstay.2, if_neg (Nat.lt_irrefl x)]
    cases xs with
    | nil =>
      refine iff_of_true ?_ ⟨fun hn => absurd hn (Nat.lt_irrefl 0), fun i hi => absurd hi (Nat.not_lt_zero _)⟩
      rw [List.length_nil, Nat.mul_zero, Nat.pow_zero, Nat.mod_one]
      rfl
    | cons y ys =>
      refine iff_of_false (fun heq => ?_) fun h => h.1 (Nat.succ_pos _) ⟨hfull, rfl⟩
      have hdvd : 2 ^ w ∣ 2 ^ (w * (y :: ys).length) := Nat.pow_dvd_pow 2 (Nat.le_mul_of_pos_right w (Nat.succ_pos _))
      have hlow := congrArg (· % 2 ^ w) heq
      have hsecond : y + 2 ^ w * counterValue w ys + increment / 2 ^ w + 1 =
          y + increment / 2 ^ w + 0 + 1 + 2 ^ w * counterValue w ys := by ring
      rw [addIncrement_cons_mod (List.forall_mem_cons.mp htail).1, Nat.mod_mod_of_dvd _ hdvd, counterValue_cons,
        hsecond, Nat.add_mul_mod_self_left] at hlow
      -- two numbers in sequence have different lowest words
      exact absurd hlow (ne_mod_succ hone _)

end Cccl.Random
