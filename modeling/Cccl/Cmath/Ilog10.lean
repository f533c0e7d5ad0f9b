/-
# `ilog10`

The decimal logarithm is estimated from the binary one, by a product in single precision, and
corrected by one comparison with a table of powers of ten.  The estimate is the decimal logarithm of
the power of two (`log10Approx_spec`), so that one comparison is enough.

The last entry of a table is not a power of ten but the largest number of the type.  With the largest
number itself the comparison `>=` succeeds, though it must not.  This is why the type `uint32_t` has
a comparison of its own, with one more on the left side, which wraps around.  Another unsigned type
of the same width has none: its largest number has a logarithm that is one too large (`ilog10_eq`).
-/
import Cccl.Cmath.Ilog
import Cccl.Lib.IntegerTypes

namespace Cccl.Cmath

open IntegerTypes

/-! ## 1. The source -/

/-- `__power_of_10_32bit` and the wider ones: powers of ten, and the largest number of the width. -/
def powersOf10 (bits count : ℕ) : List ℕ :=
  (List.range count).map (fun i => 10 ^ (i + 1)) ++ [2 ^ bits - 1]

/-- A floating-point number has so many digits; what is in the middle goes to the even side. -/
def roundDigits (digits n : ℕ) : ℕ :=
  let excess := Nat.log2 n + 1 - digits
  let upper := n >>> excess
  let lower := n % 2 ^ excess
  let half := 2 ^ excess
  (upper + (decide (half < 2 * lower ∨ half = 2 * lower ∧ upper % 2 = 1)).toNat) <<< excess

/-- The integral part of the product with `0.301029995663f`, which is `10100891 / 2 ^ 25`. -/
def log10Approx (log2 : ℕ) : ℕ := roundDigits 24 (log2 * 10100891) >>> 25

def ilog10 (m : DataModel) (T : IntegerType) (t : ℕ) : ℕ :=
  let approx := log10Approx (ilog2 t)
  if T.bits m ≤ 32 then
    let entry := (powersOf10 32 9).getD approx 0
    if T = ⟨.int, false⟩ then approx + (decide (entry < (t % 2 ^ 32 + 1) % 2 ^ 32)).toNat
    else approx + (decide (entry ≤ t % 2 ^ 32)).toNat
  else if T.bits m = 64 then
    approx + (decide ((powersOf10 64 19).getD approx 0 ≤ t % 2 ^ 64)).toNat
  else
    let entry := (powersOf10 128 38).getD approx 0
    if T = ⟨.int128, false⟩ then approx + (decide (entry < (t % 2 ^ 128 + 1) % 2 ^ 128)).toNat
    else approx + (decide (entry ≤ t % 2 ^ 128)).toNat

/-! ## 2. The estimate -/

/-- **The estimate is the logarithm of the power of two**, for all widths. -/
theorem log10Approx_spec : ∀ k < 128, 10 ^ log10Approx k ≤ 2 ^ k ∧ 2 ^ k < 10 ^ (log10Approx k + 1) := by
  decide

theorem getD_powersOf10 {bits count i : ℕ} (h : i < count) :
    (powersOf10 bits count).getD i 0 = 10 ^ (i + 1) := by
  rw [powersOf10, List.getD_eq_getElem?_getD, List.getElem?_append_left (by simpa using h)]
  simp [h]

theorem getD_powersOf10_last (bits count : ℕ) :
    (powersOf10 bits count).getD count 0 = 2 ^ bits - 1 := by
  rw [powersOf10, List.getD_eq_getElem?_getD, List.getElem?_append_right (by simp)]
  simp

/-- Where the estimate lies in a table, of which the next power of ten is too large for the type. -/
theorem log10Approx_le {t bits count : ℕ} (ht : 0 < t) (hlt : t < 2 ^ bits) (hbits : bits ≤ 128)
    (hcount : 2 ^ bits ≤ 10 ^ (count + 1)) : log10Approx (ilog2 t) ≤ count := by
  have hlow := Nat.log2_self_le ht.ne'
  have hk : ilog2 t < 128 := by
    refine (Nat.pow_lt_pow_iff_right (a := 2) (by decide)).mp ?_
    exact hlow.trans_lt (hlt.trans_le (Nat.pow_le_pow_right (by decide) hbits))
  have hpow : 10 ^ log10Approx (ilog2 t) < 10 ^ (count + 1) :=
    ((log10Approx_spec _ hk).1.trans hlow).trans_lt (hlt.trans_le hcount)
  exact Nat.lt_succ_iff.mp ((Nat.pow_lt_pow_iff_right (by decide)).mp hpow)

/-- **One comparison is enough.** -/
theorem log_eq_approx {t : ℕ} (ht : 0 < t) (hlt : t < 2 ^ 128) : Nat.log 10 t =
    log10Approx (ilog2 t) + (decide (10 ^ (log10Approx (ilog2 t) + 1) ≤ t)).toNat := by
  have hlow : 2 ^ ilog2 t ≤ t := Nat.log2_self_le ht.ne'
  have hhigh : t < 2 ^ (ilog2 t + 1) := Nat.lt_log2_self
  have hk : ilog2 t < 128 := (Nat.pow_lt_pow_iff_right (a := 2) (by decide)).mp (hlow.trans_lt hlt)
  obtain ⟨hle, hnext⟩ := log10Approx_spec _ hk
  rw [Nat.pow_succ'] at hhigh
  by_cases hmore : 10 ^ (log10Approx (ilog2 t) + 1) ≤ t
  · rw [decide_eq_true hmore, Bool.toNat_true]
    refine Nat.log_eq_of_pow_le_of_lt_pow hmore ?_
    rw [Nat.pow_succ 10 (log10Approx (ilog2 t) + 1)]
    omega
  · rw [decide_eq_false hmore, Bool.toNat_false, Nat.add_zero]
    exact Nat.log_eq_of_pow_le_of_lt_pow (hle.trans hlow) (Nat.not_le.mp hmore)

/-! ## 3. The comparison -/

/-- The comparison of a type with the width of a table, which wraps around at the largest number. -/
theorem log_eq_of_wrap {t bits count : ℕ} (ht : 0 < t) (hlt : t < 2 ^ bits) (hbits : bits ≤ 128)
    (hcount : 2 ^ bits ≤ 10 ^ (count + 1)) (hroom : 2 * 10 ^ count < 2 ^ bits) :
    log10Approx (ilog2 t) + (decide ((powersOf10 bits count).getD (log10Approx (ilog2 t)) 0 <
      (t % 2 ^ bits + 1) % 2 ^ bits)).toNat = Nat.log 10 t := by
  have hlt128 : t < 2 ^ 128 := hlt.trans_le (Nat.pow_le_pow_right (by decide) hbits)
  have hle := log10Approx_le ht hlt hbits hcount
  rw [log_eq_approx ht hlt128, Nat.mod_eq_of_lt hlt]
  congr 2
  refine decide_eq_decide.mpr ?_
  rcases Nat.lt_or_eq_of_le hle with hless | hlast
  · have hk : ilog2 t < 128 :=
      (Nat.pow_lt_pow_iff_right (a := 2) (by decide)).mp ((Nat.log2_self_le ht.ne').trans_lt hlt128)
    have hhigh : t < 2 ^ (ilog2 t + 1) := Nat.lt_log2_self
    have hnext := (log10Approx_spec _ hk).2
    have hpow : 10 ^ (log10Approx (ilog2 t) + 1) ≤ 10 ^ count :=
      Nat.pow_le_pow_right (by decide) hless
    rw [Nat.pow_succ'] at hhigh
    rw [getD_powersOf10 hless, Nat.mod_eq_of_lt (by omega)]
    exact Nat.lt_succ_iff
  · rw [hlast, getD_powersOf10_last]
    have hcut := Nat.mod_lt (t + 1) (Nat.two_pow_pos bits)
    omega

/-- The comparison of another type: only the largest number goes wrong. -/
theorem log_eq_of_ge {t bits count : ℕ} (ht : 0 < t) (hlt : t < 2 ^ bits) (hbits : bits ≤ 128)
    (hcount : 2 ^ bits ≤ 10 ^ (count + 1)) :
    log10Approx (ilog2 t) + (decide ((powersOf10 bits count).getD (log10Approx (ilog2 t)) 0 ≤
      t % 2 ^ bits)).toNat = Nat.log 10 t +
        (decide (log10Approx (ilog2 t) = count ∧ t = 2 ^ bits - 1)).toNat := by
  have hlt128 : t < 2 ^ 128 := hlt.trans_le (Nat.pow_le_pow_right (by decide) hbits)
  have hle := log10Approx_le ht hlt hbits hcount
  rw [log_eq_approx ht hlt128, Nat.mod_eq_of_lt hlt, Nat.add_assoc]
  congr 1
  rcases Nat.lt_or_eq_of_le hle with hless | hlast
  · have hnot : ¬ (log10Approx (ilog2 t) = count ∧ t = 2 ^ bits - 1) := fun h => hless.ne h.1
    rw [getD_powersOf10 hless, decide_eq_false hnot]
    exact (Nat.add_zero _).symm
  · have hlarge : ¬ 10 ^ (count + 1) ≤ t := Nat.not_le.mpr (hlt.trans_le hcount)
    have hmax : t ≤ 2 ^ bits - 1 := Nat.le_sub_one_of_lt hlt
    rw [hlast, getD_powersOf10_last, decide_eq_false hlarge, Bool.toNat_false, Nat.zero_add]
    refine congrArg Bool.toNat (decide_eq_decide.mpr ?_)
    exact ⟨fun h => ⟨rfl, Nat.le_antisymm hmax h⟩, fun h => h.2.ge⟩

/-- A 32-bit type that is not `uint32_t` and its largest number. -/
def LargestLong (m : DataModel) (T : IntegerType) (t : ℕ) : Prop :=
  m = .llp64 ∧ T = ⟨.long, false⟩ ∧ t = 2 ^ 32 - 1

instance (m : DataModel) (T : IntegerType) (t : ℕ) : Decidable (LargestLong m T t) :=
  inferInstanceAs (Decidable (_ ∧ _))

/-- **The logarithm of an unsigned number**, with one exception. -/
theorem ilog10_eq {m : DataModel} {T : IntegerType} {t : ℕ} (hT : T.signed = false) (ht : 0 < t)
    (hlt : t < 2 ^ T.bits m) :
    ilog10 m T t = Nat.log 10 t + (decide (LargestLong m T t)).toNat := by
  obtain ⟨rank, signed⟩ := T
  obtain rfl : signed = false := hT
  have hwide : 2 ^ 32 ≤ 10 ^ (9 + 1) := by decide
  -- the types that are narrower than the first table, and the one type that has its width
  have hother : t < 2 ^ 32 → log10Approx (ilog2 t) +
      (decide ((powersOf10 32 9).getD (log10Approx (ilog2 t)) 0 ≤ t % 2 ^ 32)).toNat =
        Nat.log 10 t + (decide (t = 2 ^ 32 - 1)).toNat := by
    intro hlt
    rw [log_eq_of_ge ht hlt (by decide) hwide]
    congr 2
    refine decide_eq_decide.mpr ⟨fun h => h.2, fun h => ⟨?_, h⟩⟩
    rw [h]
    decide
  have hnot : ∀ {k : ℕ}, k ≤ 31 → t < 2 ^ k → ¬ t = 2 ^ 32 - 1 := by
    intro k hk hlt heq
    have : 2 ^ k ≤ 2 ^ 31 := Nat.pow_le_pow_right (by decide) hk
    omega
  -- the table of 64 bits has an entry more than is needed
  have hlong : t < 2 ^ 64 → log10Approx (ilog2 t) +
      (decide ((powersOf10 64 19).getD (log10Approx (ilog2 t)) 0 ≤ t % 2 ^ 64)).toNat =
        Nat.log 10 t := by
    intro hlt
    have hless : ¬ (log10Approx (ilog2 t) = 19 ∧ t = 2 ^ 64 - 1) := by
      have hk : ilog2 t < 64 :=
        (Nat.pow_lt_pow_iff_right (a := 2) (by decide)).mp ((Nat.log2_self_le ht.ne').trans_lt hlt)
      have hle : ∀ k < 64, log10Approx k < 19 := by decide
      exact fun h => (hle _ hk).ne h.1
    rw [log_eq_of_ge ht hlt (by decide) (by decide), decide_eq_false hless]
    rfl
  unfold ilog10
  cases rank with
  | char =>
    have hbits : t < 2 ^ 8 := hlt
    rw [if_pos (by cases m <;> decide), if_neg (by decide), hother (hbits.trans (by decide)),
      decide_eq_false (hnot (by decide) hbits), decide_eq_false (fun h => by cases h.2.1)]
  | short =>
    have hbits : t < 2 ^ 16 := hlt
    rw [if_pos (by cases m <;> decide), if_neg (by decide), hother (hbits.trans (by decide)),
      decide_eq_false (hnot (by decide) hbits), decide_eq_false (fun h => by cases h.2.1)]
  | int =>
    have hbits : t < 2 ^ 32 := hlt
    rw [if_pos (by cases m <;> decide), if_pos rfl,
      log_eq_of_wrap ht hbits (by decide) hwide (by decide), decide_eq_false (fun h => by cases h.2.1)]
    rfl
  | long => cases m with
    | lp64 =>
      rw [if_neg (by decide), if_pos (by decide), hlong hlt, decide_eq_false (fun h => by cases h.1)]
      rfl
    | llp64 =>
      have hbits : t < 2 ^ 32 := hlt
      rw [if_pos (by decide), if_neg (by decide), hother hbits]
      congr 2
      exact decide_eq_decide.mpr ⟨fun h => ⟨rfl, rfl, h⟩, fun h => h.2.2⟩
  | longLong =>
    rw [if_neg (by cases m <;> decide), if_pos (by cases m <;> decide), hlong hlt,
      decide_eq_false (fun h => by cases h.2.1)]
    rfl
  | int128 =>
    have hbits : t < 2 ^ 128 := hlt
    rw [if_neg (by cases m <;> decide), if_neg (by cases m <;> decide), if_pos rfl,
      log_eq_of_wrap ht hbits (by decide) (by decide) (by decide),
      decide_eq_false (fun h => by cases h.2.1)]
    rfl

end Cccl.Cmath
