/-
# Compressing and expanding bits

`bit_compress` and `bit_expand` of `cuda/std/__bit`.  Both go through the mask run by run.  The generic loops go from the
lowest bit up, on the reversed mask, so that a run is found by counting leading bits; the device goes from the highest bit
down, word by word, and puts each run below what it has.  In both cases what has been gathered so far is a piece of the
result (`compressLoop_eq`, `processWord_eq`).

A shift as long as the type has no result here, where the code does not clamp it.  So that there is a result says that the
generic loops never shift so far, and that they come to an end.
-/
import Cccl.Lib.BitGather

namespace Cccl.Bit

open BitGather

/-! ## 1. The code -/

/-- The leading bits of a number of `w` bits that are `b`. -/
def countl (b : Bool) : ℕ → ℕ → ℕ
  | 0, _ => 0
  | w + 1, x => if x.testBit w = b then countl b w x + 1 else 0

def countlZero (w x : ℕ) : ℕ := countl false w x

def countlOne (w x : ℕ) : ℕ := countl true w x

/-- `shl`, which is clamped. -/
def shl (w v shift : ℕ) : ℕ := if shift < w then (v <<< shift) % 2 ^ w else 0

/-- `bitmask`, from bit 0. -/
def bitmask (w width : ℕ) : ℕ := (shl w 1 width + 2 ^ w - 1) % 2 ^ w

/-- The distances and masks of `__bit_reverse_impl_generic`. -/
def reverseSteps : ℕ → List (ℕ × ℕ)
  | 8 => [(1, 0x55), (2, 0x33)]
  | 16 => [(1, 0x5555), (2, 0x3333), (4, 0x0F0F)]
  | 32 => [(1, 0x55555555), (2, 0x33333333), (4, 0x0F0F0F0F), (8, 0x00FF00FF)]
  | 64 => [(1, 0x5555555555555555), (2, 0x3333333333333333), (4, 0x0F0F0F0F0F0F0F0F), (8, 0x00FF00FF00FF00FF),
      (16, 0x0000FFFF0000FFFF)]
  | _ => [(1, 0x55555555555555555555555555555555), (2, 0x33333333333333333333333333333333),
      (4, 0x0F0F0F0F0F0F0F0F0F0F0F0F0F0F0F0F), (8, 0x00FF00FF00FF00FF00FF00FF00FF00FF),
      (16, 0x0000FFFF0000FFFF0000FFFF0000FFFF), (32, 0x00000000FFFFFFFF00000000FFFFFFFF)]

/-- A step of `__bit_reverse_impl_generic`. -/
def reverseStep (w v : ℕ) (step : ℕ × ℕ) : ℕ := (v >>> step.1 &&& step.2 ||| (v &&& step.2) <<< step.1) % 2 ^ w

def bitReverse (w v : ℕ) : ℕ :=
  let v := (reverseSteps w).foldl (reverseStep w) v
  (v >>> (w / 2) ||| v <<< (w / 2)) % 2 ^ w

/-- The loop of `__bit_compress_impl_generic`. -/
def compressLoop (w : ℕ) : ℕ → ℕ → ℕ → ℕ → ℕ → Option ℕ
  | 0, _, _, _, _ => none
  | fuel + 1, maskRev, v, ret, offset =>
    let skip := countlZero w maskRev
    if skip = w then some ret
    else
      let maskRev := (maskRev <<< skip) % 2 ^ w
      let v := v >>> skip
      let n := countlOne w maskRev
      let segment := v &&& bitmask w n
      if offset < w ∧ n < w then
        compressLoop w fuel ((maskRev <<< n) % 2 ^ w) (v >>> n) (ret ||| (segment <<< offset) % 2 ^ w) (offset + n)
      else none

/-- `__bit_compress_impl_generic`. -/
def bitCompressGeneric (w v mask : ℕ) : Option ℕ :=
  if mask = 2 ^ w - 1 then some v else compressLoop w (w + 1) (bitReverse w mask) v 0 0

/-- The loop of `bit_expand`. -/
def expandLoop (w : ℕ) : ℕ → ℕ → ℕ → ℕ → ℕ → Option ℕ
  | 0, _, _, _, _ => none
  | fuel + 1, maskRev, v, ret, offset =>
    let skip := countlZero w maskRev
    if skip = w then some ret
    else
      let maskRev := (maskRev <<< skip) % 2 ^ w
      let offset := offset + skip
      let n := countlOne w maskRev
      let segment := v &&& bitmask w n
      if offset < w ∧ n < w then
        expandLoop w fuel ((maskRev <<< n) % 2 ^ w) (v >>> n) (ret ||| (segment <<< offset) % 2 ^ w) (offset + n)
      else none

def bitExpand (w v mask : ℕ) : Option ℕ :=
  if mask = 2 ^ w - 1 then some v else expandLoop w (w + 1) (bitReverse w mask) v 0 0

/-- `bfind.shiftamt`: the shift that brings the highest bit to the top, or all ones if there is none. -/
def bfindShiftamt (x : ℕ) : ℕ := if x = 0 then 2 ^ 32 - 1 else countlZero 32 x

/-- `__funnelshift_lc`: the higher word of two words, shifted by 32 bits at most. -/
def funnelshiftLc (lo hi shift : ℕ) : ℕ := ((hi <<< 32 ||| lo) <<< min shift 32) >>> 32 % 2 ^ 32

/-- `__bit_compress_impl_device_prepend`, for some words. -/
def prepend : ℕ → ℕ → ℕ → ℕ → ℕ
  | 0, _, _, _ => 0
  | words + 1, v, pre, n =>
    funnelshiftLc pre (v % 2 ^ 32) n ||| prepend words (v >>> 32) (v % 2 ^ 32) n <<< 32

/-- The loop of `__bit_compress_impl_device_process_word`, for a result of some words. -/
def processWord (words : ℕ) : ℕ → ℕ → ℕ → ℕ → Option ℕ
  | 0, _, _, _ => none
  | fuel + 1, ret, v, mask =>
    let skip := bfindShiftamt mask
    if skip = 2 ^ 32 - 1 then some ret
    else
      let mask := (mask <<< skip) % 2 ^ 32
      let v := (v <<< skip) % 2 ^ 32
      let n := bfindShiftamt (2 ^ 32 - 1 - mask)
      processWord words fuel (prepend words ret v n) (shl 32 v n) (shl 32 mask n)

/-- The words of `__bit_compress_impl_device` from the highest one down. -/
def processWords (words v mask : ℕ) : ℕ → ℕ → Option ℕ
  | 0, ret => some ret
  | i + 1, ret => do
    let ret ← processWord words 33 ret (v >>> (32 * i) % 2 ^ 32) (mask >>> (32 * i) % 2 ^ 32)
    processWords words v mask i ret

/-- `__bit_compress_impl_device`: in one word for types of 32 bits at most. -/
def bitCompressDevice (w v mask : ℕ) : Option ℕ :=
  if w ≤ 32 then (processWord 1 33 0 v mask).map (· % 2 ^ w)
  else processWords (w / 32) v mask (w / 32) 0

/-- The widths of unsigned types. -/
def widths : List ℕ := [8, 16, 32, 64, 128]

/-! ## 2. Leading bits -/

variable {w x m v k n : ℕ}

theorem countl_spec (b : Bool) (x : ℕ) : ∀ w : ℕ, countl b w x ≤ w ∧
    (∀ t < countl b w x, x.testBit (w - 1 - t) = b) ∧
      (countl b w x < w → x.testBit (w - 1 - countl b w x) ≠ b)
  | 0 => ⟨le_rfl, fun _ ht => absurd ht (Nat.not_lt_zero _), fun h => absurd h (Nat.lt_irrefl 0)⟩
  | w + 1 => by
    obtain ⟨hle, hrun, hend⟩ := countl_spec b x w
    rw [countl]
    split
    · rename_i htop
      refine ⟨by omega, fun t ht => ?_, fun hlt => ?_⟩
      · cases t with
        | zero => exact htop
        | succ t =>
          have := hrun t (by omega)
          rwa [show w + 1 - 1 - (t + 1) = w - 1 - t by omega]
      · have := hend (by omega)
        rwa [show w + 1 - 1 - (countl b w x + 1) = w - 1 - countl b w x by omega]
    · rename_i htop
      exact ⟨Nat.zero_le _, fun t ht => absurd ht (Nat.not_lt_zero t), fun _ => htop⟩

theorem testBit_shifted (x k : ℕ) {t : ℕ} (ht : t < w) :
    ((x <<< k) % 2 ^ w).testBit (w - 1 - t) = (decide (k + t < w) && x.testBit (w - 1 - (k + t))) := by
  rw [Nat.testBit_mod_two_pow, Nat.testBit_shiftLeft, decide_eq_true (show w - 1 - t < w by omega), Bool.true_and,
    decide_eq_decide.mpr (show w - 1 - t ≥ k ↔ k + t < w by omega), show w - 1 - t - k = w - 1 - (k + t) by omega]

/-- **Leading zeros**, behind some bits from the top: they reach a bit that is one, or the end. -/
theorem skip_spec (hk : k ≤ w) {skip : ℕ} (hskip : skip = countlZero w ((x <<< k) % 2 ^ w)) :
    (skip = w → ∀ u, k ≤ u → u < w → x.testBit (w - 1 - u) = false) ∧
      (skip ≠ w → k + skip < w ∧ x.testBit (w - 1 - (k + skip)) = true ∧
        ∀ u, k ≤ u → u < k + skip → x.testBit (w - 1 - u) = false) := by
  obtain ⟨hle, hrun, hend⟩ := countl_spec false ((x <<< k) % 2 ^ w) w
  unfold countlZero at hskip
  rw [← hskip] at hle hrun hend
  have hzero : ∀ u, k ≤ u → u < w → u < k + skip → x.testBit (w - 1 - u) = false := by
    intro u hku hu hless
    have := hrun (u - k) (by omega)
    rwa [testBit_shifted x k (by omega), Nat.add_sub_cancel' hku, decide_eq_true hu, Bool.true_and] at this
  refine ⟨fun heq u hku hu => hzero u hku hu (by omega), fun hne => ?_⟩
  have hbit := Bool.eq_true_of_not_eq_false (hend (by omega))
  rw [testBit_shifted x k (by omega), Bool.and_eq_true, decide_eq_true_eq] at hbit
  exact ⟨hbit.1, hbit.2, fun u hku hless => hzero u hku (by omega) hless⟩

/-- **Leading ones**, behind some bits from the top. -/
theorem run_spec {n : ℕ} (hn : n = countlOne w ((x <<< k) % 2 ^ w)) :
    (k < w → k + n ≤ w) ∧ (∀ u, k ≤ u → u < k + n → x.testBit (w - 1 - u) = true) ∧
      (k < w → x.testBit (w - 1 - k) = true → 0 < n) := by
  obtain ⟨hle, hrun, hend⟩ := countl_spec true ((x <<< k) % 2 ^ w) w
  unfold countlOne at hn
  rw [← hn] at hle hrun hend
  have hones : ∀ t < n, k + t < w ∧ x.testBit (w - 1 - (k + t)) = true := by
    intro t ht
    have := hrun t ht
    rwa [testBit_shifted x k (by omega), Bool.and_eq_true, decide_eq_true_eq] at this
  refine ⟨fun hk => ?_, fun u hku hu => ?_, fun hk hone => Nat.pos_of_ne_zero fun hzero => ?_⟩
  · rcases Nat.eq_zero_or_pos n with hzero | hpos
    · omega
    · have := (hones (n - 1) (by omega)).1
      omega
  · have := (hones (u - k) (by omega)).2
    rwa [Nat.add_sub_cancel' hku] at this
  · refine hend (by omega) ?_
    rw [hzero, testBit_shifted x k (by omega), Nat.add_zero, decide_eq_true hk, Bool.true_and]
    exact hone

theorem shifted_shifted (x k n : ℕ) : (((x <<< k) % 2 ^ w) <<< n) % 2 ^ w = (x <<< (k + n)) % 2 ^ w := by
  rw [Nat.shiftLeft_eq, Nat.shiftLeft_eq, Nat.shiftLeft_eq, Nat.mod_mul_mod, Nat.mul_assoc, ← Nat.pow_add]

theorem and_bitmask (hn : n ≤ w) (v : ℕ) : v &&& bitmask w n = v % 2 ^ n := by
  have hpow : 2 ^ n ≤ 2 ^ w := Nat.pow_le_pow_right (by decide) hn
  have hpos := Nat.two_pow_pos n
  have hmask : bitmask w n = 2 ^ n - 1 := by
    unfold bitmask shl
    split
    · rename_i hlt
      have hless : 2 ^ n < 2 ^ w := Nat.pow_lt_pow_right (by decide) hlt
      rw [Nat.one_shiftLeft, Nat.mod_eq_of_lt hless, Nat.sub_add_comm hpos, Nat.add_mod_right, Nat.mod_eq_of_lt (by omega)]
    · obtain rfl : n = w := by omega
      rw [Nat.zero_add, Nat.mod_eq_of_lt (by omega)]
  rw [hmask, Nat.and_two_pow_sub_one_eq_mod]

/-! ## 3. The reversed mask -/

/-- Where a bit comes from in a step. -/
def swapped (s i : ℕ) : ℕ := if i / s % 2 = 0 then i + s else i - s

/-- The masks of the steps have the bits of which the partner is above. -/
def StepsValid (w : ℕ) (steps : List (ℕ × ℕ)) : Prop :=
  ∀ step ∈ steps, 0 < step.1 ∧ ∀ i < w, step.2.testBit i = decide (i / step.1 % 2 = 0) ∧ swapped step.1 i < w

instance (w : ℕ) (steps : List (ℕ × ℕ)) : Decidable (StepsValid w steps) := inferInstanceAs (Decidable (∀ _ ∈ _, _))

theorem testBit_reverseStep (v : ℕ) {s c i : ℕ} (hs : 0 < s) (hi : i < w)
    (hc : ∀ i < w, c.testBit i = decide (i / s % 2 = 0)) :
    (reverseStep w v (s, c)).testBit i = v.testBit (swapped s i) := by
  rw [reverseStep, Nat.testBit_mod_two_pow, decide_eq_true hi, Bool.true_and, Nat.testBit_or, Nat.testBit_and,
    Nat.testBit_shiftRight, Nat.testBit_shiftLeft, Nat.testBit_and, hc i hi, hc (i - s) (by omega), swapped]
  have hdivision : s ≤ i → i / s = (i - s) / s + 1 := fun hle => Nat.div_eq_sub_div hs hle
  split
  · rename_i heven
    rw [decide_eq_true heven, Bool.and_true, Nat.add_comm s]
    by_cases hle : s ≤ i
    · have := hdivision hle
      rw [decide_eq_false (show ¬(i - s) / s % 2 = 0 by omega), Bool.and_false, Bool.and_false, Bool.or_false]
    · rw [decide_eq_false (show ¬ i ≥ s from hle), Bool.false_and, Bool.or_false]
  · rename_i hodd
    have hle : s ≤ i := by
      by_contra hlt
      exact hodd (by rw [Nat.div_eq_of_lt (Nat.not_le.mp hlt)])
    have := hdivision hle
    rw [decide_eq_false hodd, Bool.and_false, Bool.false_or, decide_eq_true (show i ≥ s from hle), Bool.true_and,
      decide_eq_true (show (i - s) / s % 2 = 0 by omega), Bool.and_true]

theorem testBit_reverseSteps : ∀ {steps : List (ℕ × ℕ)} (v : ℕ), StepsValid w steps → ∀ {i : ℕ}, i < w →
    (steps.foldl (reverseStep w) v).testBit i = v.testBit (steps.foldr (fun step i => swapped step.1 i) i) ∧
      steps.foldr (fun step i => swapped step.1 i) i < w
  | [], _, _, _, hi => ⟨rfl, hi⟩
  | (s, c) :: steps, v, hvalid, i, hi => by
    obtain ⟨hs, hstep⟩ := hvalid _ List.mem_cons_self
    obtain ⟨hbit, hless⟩ := testBit_reverseSteps (reverseStep w v (s, c))
      (fun step hstep => hvalid step (List.mem_cons_of_mem _ hstep)) hi
    exact ⟨hbit.trans (testBit_reverseStep v hs hless fun j hj => (hstep j hj).1), (hstep _ hless).2⟩

theorem reverseSteps_valid : ∀ w ∈ widths, StepsValid w (reverseSteps w) ∧ ∀ i < w, swapped (w / 2) i < w ∧
    (reverseSteps w).foldr (fun step i => swapped step.1 i) (swapped (w / 2) i) = w - 1 - i := by
  decide +kernel

theorem reverseStep_lt (v : ℕ) (step : ℕ × ℕ) : reverseStep w v step < 2 ^ w := Nat.mod_lt _ (Nat.two_pow_pos w)

theorem foldl_reverseStep_lt : ∀ (steps : List (ℕ × ℕ)) {v : ℕ}, v < 2 ^ w → steps.foldl (reverseStep w) v < 2 ^ w
  | [], _, hv => hv
  | step :: steps, v, _ => foldl_reverseStep_lt steps (reverseStep_lt v step)

/-- **`bit_reverse` turns the bits around.** -/
theorem testBit_bitReverse (hw : w ∈ widths) (hm : m < 2 ^ w) {u : ℕ} (hu : u < w) :
    (bitReverse w m).testBit (w - 1 - u) = m.testBit u := by
  obtain ⟨hvalid, hplace⟩ := reverseSteps_valid w hw
  obtain ⟨hless, hsource⟩ := hplace (w - 1 - u) (by omega)
  have heven : w = 2 * (w / 2) := by
    have : ∀ w ∈ widths, w = 2 * (w / 2) := by decide
    exact this w hw
  have hlt := foldl_reverseStep_lt (reverseSteps w) hm
  have hsteps := (testBit_reverseSteps m hvalid hless).1
  rw [hsource, show w - 1 - (w - 1 - u) = u by omega] at hsteps
  rw [← hsteps, bitReverse, Nat.testBit_mod_two_pow, decide_eq_true (show w - 1 - u < w by omega), Bool.true_and,
    Nat.testBit_or, Nat.testBit_shiftRight, Nat.testBit_shiftLeft, swapped]
  generalize (reverseSteps w).foldl (reverseStep w) m = r at hlt
  have hi : w - 1 - u < w := by omega
  generalize w - 1 - u = i at hless hi
  generalize hhalf : w / 2 = half at heven hless
  rcases Nat.lt_or_ge i half with hlower | hupper
  · rw [if_pos (by rw [Nat.div_eq_of_lt hlower]), decide_eq_false (Nat.not_le.mpr hlower), Bool.false_and, Bool.or_false,
      Nat.add_comm]
  · have hone : i / half = 1 := Nat.div_eq_of_lt_le (by omega) (by omega)
    rw [hone, if_neg (by decide), Nat.testBit_lt_two_pow (hlt.trans_le (Nat.pow_le_pow_right (by decide) (by omega))),
      Bool.false_or, decide_eq_true (show i ≥ half from hupper), Bool.true_and]

theorem bitReverse_lt (m : ℕ) : bitReverse w m < 2 ^ w := Nat.mod_lt _ (Nat.two_pow_pos w)

/-! ## 4. From the lowest bit up -/

section Generic

variable {ret : ℕ}

theorem segment_shift {offset : ℕ} (hn : n ≤ w) (hfit : offset + n ≤ w) (v : ℕ) :
    ((v &&& bitmask w n) <<< offset) % 2 ^ w = (v % 2 ^ n) <<< offset := by
  rw [and_bitmask hn, Nat.mod_eq_of_lt]
  rw [Nat.shiftLeft_eq]
  have hless := Nat.mul_lt_mul_of_pos_right (Nat.mod_lt v (Nat.two_pow_pos n)) (Nat.two_pow_pos offset)
  rw [← Nat.pow_add] at hless
  exact hless.trans_le (Nat.pow_le_pow_right (by decide) (by omega))

theorem exists_zero (hm : m < 2 ^ w) (hfull : m ≠ 2 ^ w - 1) : ∃ u < w, m.testBit u = false := by
  by_contra hnone
  refine hfull (Nat.eq_of_testBit_eq fun i => ?_)
  rw [Nat.testBit_two_pow_sub_one]
  rcases Nat.lt_or_ge i w with hless | hmore
  · rw [decide_eq_true hless]
    exact Bool.eq_true_of_not_eq_false fun hzero => hnone ⟨i, hless, hzero⟩
  · rw [decide_eq_false (Nat.not_lt.mpr hmore), Nat.testBit_lt_two_pow (hm.trans_le (Nat.pow_le_pow_right (by decide) hmore))]

/-- **The next run of the mask**: zeros up to the end, or up to a run of ones that is not all bits. -/
theorem next_run (hw : w ∈ widths) (hm : m < 2 ^ w) (hfull : m ≠ 2 ^ w - 1) (hk : k ≤ w) {skip : ℕ}
    (hskip : skip = countlZero w ((bitReverse w m <<< k) % 2 ^ w)) :
    (skip = w → ∀ i, k ≤ i → i < w → m.testBit i = false) ∧
      (skip ≠ w → (∀ i, k ≤ i → i < k + skip → m.testBit i = false) ∧
        ∀ n, n = countlOne w ((bitReverse w m <<< (k + skip)) % 2 ^ w) →
          0 < n ∧ n < w ∧ k + skip + n ≤ w ∧ ∀ i, k + skip ≤ i → i < k + skip + n → m.testBit i = true) := by
  obtain ⟨hdone, hmore⟩ := skip_spec hk hskip
  refine ⟨fun hend i hki hi => ?_, fun hend => ?_⟩
  · rw [← testBit_bitReverse hw hm hi]
    exact hdone hend i hki hi
  · obtain ⟨hkless, hbit, hzero⟩ := hmore hend
    refine ⟨fun i hki hi => ?_, fun n hn => ?_⟩
    · rw [← testBit_bitReverse hw hm (by omega)]
      exact hzero i hki hi
    · obtain ⟨hrunLe, hrun, hpos⟩ := run_spec hn
      have hle := hrunLe hkless
      have hones : ∀ i, k + skip ≤ i → i < k + skip + n → m.testBit i = true := fun i hki hi => by
        rw [← testBit_bitReverse hw hm (by omega)]
        exact hrun i hki hi
      refine ⟨hpos hkless hbit, ?_, hle, hones⟩
      -- a run of all bits is left to the full mask
      obtain ⟨u, hu, hzero⟩ := exists_zero hm hfull
      by_contra hall
      rw [hones u (by omega) (by omega)] at hzero
      exact Bool.false_ne_true hzero.symm

/-- **The loop gathers the rest of the bits.** -/
theorem compressLoop_eq (hw : w ∈ widths) (hm : m < 2 ^ w) (hfull : m ≠ 2 ^ w - 1) : ∀ {fuel k ret : ℕ}, k ≤ w →
    w < fuel + k → Gathered v m 0 k ret →
      ∃ r, compressLoop w fuel ((bitReverse w m <<< k) % 2 ^ w) (v >>> k) ret (rank m k) = some r ∧ Gathered v m 0 w r
  | 0, k, ret, hk, hfuel, _ => by omega
  | fuel + 1, k, ret, hk, hfuel, hret => by
    obtain ⟨hdone, hmore⟩ := next_run hw hm hfull hk rfl
    rw [compressLoop]
    dsimp only
    generalize countlZero w ((bitReverse w m <<< k) % 2 ^ w) = skip at hdone hmore
    by_cases hend : skip = w
    · refine ⟨ret, if_pos hend, ?_⟩
      have hjoin := hret.join (gathered_zeros (hdone hend)) (Nat.zero_le k) hk
      rwa [Nat.zero_shiftLeft, Nat.or_zero] at hjoin
    · obtain ⟨hzeros, hrun⟩ := hmore hend
      rw [if_neg hend, shifted_shifted]
      obtain ⟨hnpos, hnlt, hn, hones⟩ := hrun _ rfl
      generalize countlOne w ((bitReverse w m <<< (k + skip)) % 2 ^ w) = n at hnpos hnlt hn hones
      have hrankSkip := rank_zeros hzeros
      have hrankRun := rank_ones hones
      have hrankLe := rank_le m (k + skip)
      have hshift : v >>> k >>> skip = v >>> (k + skip) := (Nat.shiftRight_add v k skip).symm
      rw [if_pos ⟨by omega, hnlt⟩, shifted_shifted, segment_shift hnlt.le (by omega), hshift, ← Nat.shiftRight_add,
        show rank m k + n = rank m (k + skip + n) by omega]
      refine compressLoop_eq hw hm hfull (by omega) (by omega) ?_
      have hskipped := hret.join (gathered_zeros hzeros) (Nat.zero_le k) (Nat.le_add_right k skip)
      rw [Nat.zero_shiftLeft, Nat.or_zero] at hskipped
      have hjoin := hskipped.join (gathered_ones hones) (Nat.zero_le _) (Nat.le_add_right _ n)
      rwa [hrankSkip] at hjoin

/-- `bit_compress`, generic. -/
theorem bitCompressGeneric_spec (hw : w ∈ widths) (hv : v < 2 ^ w) (hm : m < 2 ^ w) :
    ∃ r, bitCompressGeneric w v m = some r ∧ Gathered v m 0 w r := by
  unfold bitCompressGeneric
  split
  · rename_i hfull
    have hones : ∀ i, 0 ≤ i → i < 0 + w → m.testBit i = true := fun i _ hi => by
      rw [hfull, Nat.testBit_two_pow_sub_one]
      exact decide_eq_true (by omega)
    have hall := gathered_ones (v := v) hones
    rw [Nat.zero_add, Nat.shiftRight_zero, Nat.mod_eq_of_lt hv] at hall
    exact ⟨v, rfl, hall⟩
  · rename_i hfull
    have hstart : (bitReverse w m <<< 0) % 2 ^ w = bitReverse w m := by
      rw [Nat.shiftLeft_zero, Nat.mod_eq_of_lt (bitReverse_lt m)]
    have hnone : Gathered v m 0 0 0 := gathered_zeros fun i _ hi => absurd hi (Nat.not_lt_zero i)
    have hloop := compressLoop_eq hw hm hfull (Nat.zero_le w) (by omega : w < w + 1 + 0) hnone
    rwa [hstart] at hloop

/-- **The loop scatters the rest of the bits.** -/
theorem expandLoop_eq (hw : w ∈ widths) (hm : m < 2 ^ w) (hfull : m ≠ 2 ^ w - 1) : ∀ {fuel k ret : ℕ}, k ≤ w →
    w < fuel + k → Scattered v m k ret →
      ∃ r, expandLoop w fuel ((bitReverse w m <<< k) % 2 ^ w) (v >>> rank m k) ret k = some r ∧ Scattered v m w r
  | 0, k, ret, hk, hfuel, _ => by omega
  | fuel + 1, k, ret, hk, hfuel, hret => by
    obtain ⟨hdone, hmore⟩ := next_run hw hm hfull hk rfl
    rw [expandLoop]
    dsimp only
    generalize countlZero w ((bitReverse w m <<< k) % 2 ^ w) = skip at hdone hmore
    by_cases hend : skip = w
    · refine ⟨ret, if_pos hend, ?_⟩
      have hscattered := hret.zeros (n := w - k) fun i hki hi => hdone hend i hki (by omega)
      rwa [Nat.add_sub_cancel' hk] at hscattered
    · obtain ⟨hzeros, hrun⟩ := hmore hend
      rw [if_neg hend, shifted_shifted]
      obtain ⟨hnpos, hnlt, hn, hones⟩ := hrun _ rfl
      generalize countlOne w ((bitReverse w m <<< (k + skip)) % 2 ^ w) = n at hnpos hnlt hn hones
      have hrankSkip := rank_zeros hzeros
      have hrankRun := rank_ones hones
      rw [if_pos ⟨by omega, hnlt⟩, shifted_shifted, segment_shift hnlt.le hn, ← Nat.shiftRight_add, ← hrankSkip, ← hrankRun]
      refine expandLoop_eq hw hm hfull hn (by omega) ?_
      exact (hret.zeros hzeros).ones hones

/-- `bit_expand`. -/
theorem bitExpand_spec (hw : w ∈ widths) (hv : v < 2 ^ w) (hm : m < 2 ^ w) :
    ∃ r, bitExpand w v m = some r ∧ Scattered v m w r := by
  have hnone : Scattered v m 0 0 := fun i => by
    rw [Nat.zero_testBit, decide_eq_false (Nat.not_lt_zero i), Bool.false_and]
  unfold bitExpand
  split
  · rename_i hfull
    have hones : ∀ i, 0 ≤ i → i < 0 + w → m.testBit i = true := fun i _ hi => by
      rw [hfull, Nat.testBit_two_pow_sub_one]
      exact decide_eq_true (by omega)
    have hall := hnone.ones hones
    rw [Nat.zero_add, Nat.zero_or, Nat.shiftLeft_zero] at hall
    change Scattered v m w (v >>> 0 % 2 ^ w) at hall
    rw [Nat.shiftRight_zero, Nat.mod_eq_of_lt hv] at hall
    exact ⟨v, rfl, hall⟩
  · rename_i hfull
    have hstart : (bitReverse w m <<< 0) % 2 ^ w = bitReverse w m := by
      rw [Nat.shiftLeft_zero, Nat.mod_eq_of_lt (bitReverse_lt m)]
    have hloop := expandLoop_eq hw hm hfull (Nat.zero_le w) (by omega : w < w + 1 + 0) hnone
    rwa [hstart] at hloop

end Generic

/-! ## 5. From the highest bit down -/

section Device

variable {words : ℕ}

theorem testBit_funnelshiftLc {lo : ℕ} (hlo : lo < 2 ^ 32) (hi shift t : ℕ) : (funnelshiftLc lo hi shift).testBit t =
    (decide (t < 32) && if t < min shift 32 then lo.testBit (32 - min shift 32 + t) else hi.testBit (t - min shift 32)) := by
  have hshift := Nat.min_le_right shift 32
  rw [funnelshiftLc, Nat.testBit_mod_two_pow]
  generalize min shift 32 = n at hshift
  rcases Nat.lt_or_ge t 32 with ht | ht
  · rw [decide_eq_true ht, Bool.true_and, Bool.true_and, Nat.testBit_shiftRight, Nat.testBit_shiftLeft,
      decide_eq_true (show 32 + t ≥ n by omega), Bool.true_and, Nat.testBit_or, Nat.testBit_shiftLeft]
    split
    · rename_i hn
      rw [decide_eq_false (show ¬ 32 + t - n ≥ 32 by omega), Bool.false_and, Bool.false_or,
        show 32 + t - n = 32 - n + t by omega]
    · rename_i hn
      rw [decide_eq_true (show 32 + t - n ≥ 32 by omega), Bool.true_and,
        Nat.testBit_lt_two_pow (hlo.trans_le (Nat.pow_le_pow_right (by decide) (by omega))), Bool.or_false,
        show 32 + t - n - 32 = t - n by omega]
  · rw [decide_eq_false (Nat.not_lt.mpr ht), Bool.false_and, Bool.false_and]

/-- The words together are shifted, and the highest bits of the prefix follow. -/
theorem testBit_prepend (n : ℕ) : ∀ {words v pre : ℕ}, pre < 2 ^ 32 → ∀ t, (prepend words v pre n).testBit t =
    (decide (t < 32 * words) && if t < min n 32 then pre.testBit (32 - min n 32 + t) else v.testBit (t - min n 32))
  | 0, v, pre, _, t => by rw [prepend, Nat.zero_testBit, decide_eq_false (by omega), Bool.false_and]
  | words + 1, v, pre, hpre, t => by
    have hshift := Nat.min_le_right n 32
    rw [prepend, Nat.testBit_or, testBit_funnelshiftLc hpre, Nat.testBit_shiftLeft,
      testBit_prepend n (Nat.mod_lt v (Nat.two_pow_pos 32))]
    generalize min n 32 = s at hshift
    rcases Nat.lt_or_ge t 32 with ht | ht
    · rw [decide_eq_true ht, Bool.true_and, decide_eq_false (show ¬ t ≥ 32 by omega), Bool.false_and, Bool.or_false,
        decide_eq_true (show t < 32 * (words + 1) by omega), Bool.true_and]
      split
      · rfl
      · rw [Nat.testBit_mod_two_pow, decide_eq_true (show t - s < 32 by omega), Bool.true_and]
    · rw [decide_eq_false (show ¬ t < 32 by omega), Bool.false_and, Bool.false_or, decide_eq_true (show t ≥ 32 from ht),
        Bool.true_and, decide_eq_decide.mpr (show t - 32 < 32 * words ↔ t < 32 * (words + 1) by omega),
        if_neg (show ¬ t < s by omega)]
      congr 1
      split
      · rename_i hlow
        rw [Nat.testBit_mod_two_pow, decide_eq_true (show 32 - s + (t - 32) < 32 by omega), Bool.true_and,
          show 32 - s + (t - 32) = t - s by omega]
      · rename_i hhigh
        rw [Nat.testBit_shiftRight, show 32 + (t - 32 - s) = t - s by omega]

theorem min_bfindShiftamt_not {x : ℕ} (hx : x < 2 ^ 32) :
    min (bfindShiftamt (2 ^ 32 - 1 - x)) 32 = countlOne 32 x := by
  have hcomplement : ∀ i < 32, (2 ^ 32 - 1 - x).testBit i = !x.testBit i := fun i hi => by
    rw [show 2 ^ 32 - 1 - x = 2 ^ 32 - (x + 1) by omega, Nat.testBit_two_pow_sub_succ hx, decide_eq_true hi, Bool.true_and]
  have hcount : ∀ w ≤ 32, countl false w (2 ^ 32 - 1 - x) = countl true w x := by
    intro w hw
    induction w with
    | zero => rfl
    | succ w ih =>
      rw [countl, countl, ih (by omega), hcomplement w (by omega)]
      exact if_congr (by rw [Bool.not_eq_false']) rfl rfl
  have hle := (countl_spec true x 32).1
  unfold bfindShiftamt countlZero countlOne
  rw [hcount 32 le_rfl]
  split
  · rename_i hall
    have hones : ∀ i < 32, x.testBit i = true := fun i hi => by
      have := hcomplement i hi
      rwa [hall, Nat.zero_testBit, eq_comm, Bool.not_eq_false'] at this
    have hend := (countl_spec true x 32).2.2
    have : countl true 32 x = 32 := by
      by_contra hne
      exact hend (by omega) (hones _ (by omega))
    rw [this]
    rfl
  · exact Nat.min_eq_left hle

theorem shl_shifted (x k n : ℕ) : shl 32 ((x <<< k) % 2 ^ 32) n = (x <<< (k + min n 32)) % 2 ^ 32 := by
  rw [shl]
  split
  · rename_i hn
    rw [shifted_shifted, Nat.min_eq_left hn.le]
  · rename_i hn
    rw [Nat.min_eq_right (Nat.not_lt.mp hn), Nat.shiftLeft_eq, Nat.pow_add, ← Nat.mul_assoc, Nat.mul_mod_left]

theorem testBit_word (v base : ℕ) {t : ℕ} (ht : t < 32) : (v >>> base % 2 ^ 32).testBit t = v.testBit (base + t) := by
  rw [Nat.testBit_mod_two_pow, decide_eq_true ht, Bool.true_and, Nat.testBit_shiftRight]

theorem prepend_eq {base k ret : ℕ} {word : ℕ} (hn : k + min n 32 ≤ 32)
    (hword : ∀ t < 32, word.testBit t = v.testBit (base + t))
    (hlt : v >>> (base + (32 - (k + min n 32))) % 2 ^ min n 32 ||| ret <<< min n 32 < 2 ^ (32 * words)) :
    prepend words ret ((word <<< k) % 2 ^ 32) n =
      v >>> (base + (32 - (k + min n 32))) % 2 ^ min n 32 ||| ret <<< min n 32 := by
  refine Nat.eq_of_testBit_eq fun t => ?_
  rw [testBit_prepend n (Nat.mod_lt _ (Nat.two_pow_pos 32))]
  rcases Nat.lt_or_ge t (32 * words) with ht | ht
  · have hpiece : ∀ (x s : ℕ), (x % 2 ^ s).testBit t = (decide (t < s) && x.testBit t) :=
      fun x s => Nat.testBit_mod_two_pow x s t
    rw [decide_eq_true ht, Bool.true_and, Nat.testBit_or, hpiece, Nat.testBit_shiftRight, Nat.testBit_shiftLeft]
    generalize min n 32 = s at hn
    split
    · rename_i hrun
      have hbit := testBit_shifted (w := 32) word k (t := s - 1 - t) (by omega)
      rw [show 32 - 1 - (s - 1 - t) = 32 - s + t by omega, decide_eq_true (show k + (s - 1 - t) < 32 by omega),
        Bool.true_and, hword _ (by omega)] at hbit
      rw [hbit, decide_eq_true hrun, Bool.true_and, decide_eq_false (show ¬ t ≥ s by omega), Bool.false_and, Bool.or_false,
        show base + (32 - 1 - (k + (s - 1 - t))) = base + (32 - (k + s)) + t by omega]
    · rename_i hbehind
      rw [decide_eq_false hbehind, Bool.false_and, Bool.false_or, decide_eq_true (show t ≥ s by omega), Bool.true_and]
  · rw [decide_eq_false (Nat.not_lt.mpr ht), Bool.false_and,
      Nat.testBit_lt_two_pow (hlt.trans_le (Nat.pow_le_pow_right (by decide) ht))]

/-- **The loop puts the rest of the word below.** -/
theorem processWord_eq (base words : ℕ) (hbase : base + 32 ≤ 32 * words) : ∀ (fuel j : ℕ) {ret : ℕ}, j ≤ 32 → 32 < fuel + j →
    Gathered v m (base + (32 - j)) (32 * words) ret → ∃ r, processWord words fuel ret
      (((v >>> base % 2 ^ 32) <<< j) % 2 ^ 32) (((m >>> base % 2 ^ 32) <<< j) % 2 ^ 32) = some r ∧
        Gathered v m base (32 * words) r
  | 0, j, _, hj, hfuel, _ => by omega
  | fuel + 1, j, ret, hj, hfuel, hret => by
    have hbits : ∀ u < 32, (m >>> base % 2 ^ 32).testBit (32 - 1 - u) = m.testBit (base + (32 - 1 - u)) :=
      fun u hu => testBit_word m base (by omega)
    obtain ⟨hdone, hmore⟩ := skip_spec (w := 32) (x := m >>> base % 2 ^ 32) hj rfl
    rw [processWord]
    dsimp only
    have hword := Nat.mod_lt ((m >>> base % 2 ^ 32) <<< j) (Nat.two_pow_pos 32)
    rw [bfindShiftamt]
    by_cases hzero : ((m >>> base % 2 ^ 32) <<< j) % 2 ^ 32 = 0
    · rw [if_pos hzero, if_pos rfl]
      refine ⟨ret, rfl, ?_⟩
      have hzeros : ∀ i, base ≤ i → i < base + (32 - j) → m.testBit i = false := fun i hi hij => by
        have hu := testBit_shifted (w := 32) (m >>> base % 2 ^ 32) j (t := 32 - 1 - j - (i - base)) (by omega)
        rw [hzero, Nat.zero_testBit, decide_eq_true (by omega), Bool.true_and, hbits _ (by omega),
          show base + (32 - 1 - (j + (32 - 1 - j - (i - base)))) = i by omega] at hu
        exact hu.symm
      have hjoin := (gathered_zeros hzeros).join hret (Nat.le_add_right _ _) (by omega)
      rwa [Nat.zero_or, rank_zeros hzeros, Nat.sub_self, Nat.shiftLeft_zero] at hjoin
    · rw [if_neg hzero]
      have hskipLe := (countl_spec false (((m >>> base % 2 ^ 32) <<< j) % 2 ^ 32) 32).1
      change countlZero 32 _ ≤ 32 at hskipLe
      generalize hskip : countlZero 32 (((m >>> base % 2 ^ 32) <<< j) % 2 ^ 32) = skip at hdone hmore hskipLe
      have hend : skip ≠ 32 := fun hend => hzero (Nat.eq_of_testBit_eq fun i => by
        rw [Nat.zero_testBit]
        rcases Nat.lt_or_ge i 32 with hi | hi
        · have hu := testBit_shifted (w := 32) (m >>> base % 2 ^ 32) j (t := 32 - 1 - i) (by omega)
          rw [show 32 - 1 - (32 - 1 - i) = i by omega] at hu
          rw [hu]
          by_cases hinside : j + (32 - 1 - i) < 32
          · rw [hdone hend _ (Nat.le_add_right j _) hinside, Bool.and_false]
          · rw [decide_eq_false hinside, Bool.false_and]
        · exact Nat.testBit_lt_two_pow (hword.trans_le (Nat.pow_le_pow_right (by decide) hi)))
      obtain ⟨hkless, hbit, hskipped⟩ := hmore hend
      rw [if_neg (by omega), shifted_shifted, shifted_shifted, shl_shifted, shl_shifted]
      generalize hrun : bfindShiftamt (2 ^ 32 - 1 - ((m >>> base % 2 ^ 32) <<< (j + skip)) % 2 ^ 32) = n
      have hn : min n 32 = countlOne 32 (((m >>> base % 2 ^ 32) <<< (j + skip)) % 2 ^ 32) := by
        rw [← hrun, min_bfindShiftamt_not (Nat.mod_lt _ (Nat.two_pow_pos 32))]
      obtain ⟨hfit, hones, hpos⟩ := run_spec hn
      have hfit := hfit hkless
      have hpos := hpos hkless hbit
      have hzeros : ∀ i, base + (32 - (j + skip)) ≤ i → i < base + (32 - j) → m.testBit i = false := fun i hi hij => by
        have := hskipped (base + 31 - i) (by omega) (by omega)
        rwa [hbits _ (by omega), show base + (32 - 1 - (base + 31 - i)) = i by omega] at this
      have hplaces : ∀ i, base + (32 - (j + skip + min n 32)) ≤ i →
          i < base + (32 - (j + skip + min n 32)) + min n 32 → m.testBit i = true := fun i hi hin => by
        have := hones (base + 31 - i) (by omega) (by omega)
        rwa [hbits _ (by omega), show base + (32 - 1 - (base + 31 - i)) = i by omega] at this
      have hnext := (gathered_zeros (v := v) hzeros).join hret (by omega) (by omega)
      have hsame : rank m (base + (32 - j)) = rank m (base + (32 - (j + skip))) := by
        have := rank_zeros (p := base + (32 - (j + skip))) (n := skip) fun i hi hin => hzeros i hi (by omega)
        rwa [show base + (32 - (j + skip)) + skip = base + (32 - j) by omega] at this
      rw [Nat.zero_or, hsame, Nat.sub_self, Nat.shiftLeft_zero] at hnext
      have hplace : base + (32 - (j + skip + min n 32)) + min n 32 = base + (32 - (j + skip)) := by omega
      have hpiece := gathered_ones (v := v) hplaces
      rw [hplace] at hpiece
      have hjoin := hpiece.join hnext (by omega) (by omega)
      rw [← hplace, rank_ones hplaces, Nat.add_sub_cancel_left] at hjoin
      have hall : rank m (32 * words) - rank m (base + (32 - (j + skip + min n 32))) ≤ 32 * words :=
        (Nat.sub_le _ _).trans (rank_le m _)
      rw [prepend_eq (v := v) hfit (fun t ht => testBit_word v base ht)
        (hjoin.lt.trans_le (Nat.pow_le_pow_right (by decide) hall))]
      exact processWord_eq base words hbase fuel _ hfit (by omega) hjoin

theorem processWords_eq : ∀ {i ret : ℕ}, i ≤ words → Gathered v m (32 * i) (32 * words) ret →
    ∃ r, processWords words v m i ret = some r ∧ Gathered v m 0 (32 * words) r
  | 0, ret, _, hret => ⟨ret, rfl, hret⟩
  | i + 1, ret, hi, hret => by
    have hword : ∀ x : ℕ, (x >>> (32 * i) % 2 ^ 32) <<< 0 % 2 ^ 32 = x >>> (32 * i) % 2 ^ 32 := fun x => by
      rw [Nat.shiftLeft_zero, Nat.mod_mod]
    obtain ⟨r, hr, hgathered⟩ := processWord_eq (32 * i) words (by omega) 33 0 (by omega) (by omega) hret
    rw [hword, hword] at hr
    obtain ⟨r', hr', hgathered'⟩ := processWords_eq (show i ≤ words by omega) hgathered
    refine ⟨r', ?_, hgathered'⟩
    change (processWord words 33 ret _ _).bind _ = some r'
    rw [hr]
    exact hr'

/-- `bit_compress` on the device. -/
theorem bitCompressDevice_spec (hw : w ∈ widths) (hv : v < 2 ^ w) (hm : m < 2 ^ w) :
    ∃ r, bitCompressDevice w v m = some r ∧ Gathered v m 0 w r := by
  have hnone : ∀ q, Gathered v m q q 0 := fun q => gathered_zeros fun i hi hq => by omega
  unfold bitCompressDevice
  split
  · rename_i hle
    have hpow : 2 ^ w ≤ 2 ^ 32 := Nat.pow_le_pow_right (by decide) hle
    have hword : ∀ {x : ℕ}, x < 2 ^ w → (x >>> 0 % 2 ^ 32) <<< 0 % 2 ^ 32 = x := fun {x} hx => by
      rw [Nat.shiftLeft_zero, Nat.mod_mod, Nat.shiftRight_zero, Nat.mod_eq_of_lt (hx.trans_le hpow)]
    obtain ⟨r, hr, hgathered⟩ := processWord_eq 0 1 (by omega) 33 0 (by omega) (by omega) (hnone 32)
    rw [hword hv, hword hm] at hr
    have hrank : rank m 32 = rank m w := by
      have := rank_zeros (m := m) (p := w) (n := 32 - w) fun i hi _ =>
        Nat.testBit_lt_two_pow (hm.trans_le (Nat.pow_le_pow_right (by decide) hi))
      rwa [Nat.add_sub_cancel' hle] at this
    have hlt : r < 2 ^ (rank m w - rank m 0) := by
      rw [← hrank]
      exact hgathered.lt
    have hsmall : r < 2 ^ w :=
      hlt.trans_le (Nat.pow_le_pow_right (by decide) ((Nat.sub_le _ _).trans (rank_le m w)))
    refine ⟨r, ?_, hlt, fun i hi hiw => hgathered.bit i hi (by omega)⟩
    rw [hr, Option.map_some, Nat.mod_eq_of_lt hsmall]
  · rename_i hlarge
    have hwords : 32 * (w / 32) = w := by
      have : ∀ w ∈ widths, ¬ w ≤ 32 → 32 * (w / 32) = w := by decide
      exact this w hw hlarge
    obtain ⟨r, hr, hgathered⟩ := processWords_eq (le_refl (w / 32)) (hnone (32 * (w / 32)))
    rw [hwords] at hgathered
    exact ⟨r, hr, hgathered⟩

end Device

/-! ## 6. There and back -/

theorem scattered_lt {s : ℕ} (hs : Scattered v m w s) : s < 2 ^ w :=
  Nat.lt_pow_two_of_testBit s fun i hi => by rw [hs i, decide_eq_false (Nat.not_lt.mpr hi), Bool.false_and]

theorem gathered_lt {r : ℕ} (hr : Gathered v m 0 w r) : r < 2 ^ w :=
  hr.lt.trans_le (Nat.pow_le_pow_right (by decide) ((Nat.sub_le _ _).trans (rank_le m w)))

/-- **Compressing gathers, expanding scatters, and each undoes the other at the places of the mask.** -/
theorem bit_compress_expand (w : ℕ) (hw : w ∈ widths) (v m : ℕ) (hv : v < 2 ^ w) (hm : m < 2 ^ w) :
    ∃ packed spread, bitCompressGeneric w v m = some packed ∧ bitCompressDevice w v m = some packed ∧
      Gathered v m 0 w packed ∧ bitExpand w v m = some spread ∧ Scattered v m w spread ∧
      bitExpand w packed m = some (v &&& m) ∧
      bitCompressGeneric w spread m = some (v % 2 ^ rank m w) ∧
      bitCompressDevice w spread m = some (v % 2 ^ rank m w) := by
  obtain ⟨packed, hgeneric, hpacked⟩ := bitCompressGeneric_spec hw hv hm
  obtain ⟨packed', hdevice, hpacked'⟩ := bitCompressDevice_spec hw hv hm
  obtain rfl := hpacked.eq hpacked'
  obtain ⟨spread, hexpand, hspread⟩ := bitExpand_spec hw hv hm
  obtain ⟨back, hback, hbackSpread⟩ := bitExpand_spec hw (gathered_lt hpacked) hm
  obtain ⟨low, hlow, hlowPacked⟩ := bitCompressGeneric_spec hw (scattered_lt hspread) hm
  obtain ⟨low', hlow', hlowPacked'⟩ := bitCompressDevice_spec hw (scattered_lt hspread) hm
  refine ⟨packed, spread, hgeneric, hdevice, hpacked, hexpand, hspread, ?_, ?_, ?_⟩
  · rw [hback, Scattered.of_gathered hpacked hbackSpread hm]
  · rw [hlow, Gathered.of_scattered hspread hlowPacked]
  · rw [hlow', Gathered.of_scattered hspread hlowPacked']

/-- Every other bit of a byte. -/
theorem bit_compress_expand_byte : bitExpand 8 0xF 0xAA = some 0xAA := by
  obtain ⟨packed, spread, hpacked, -, -, -, -, hback, -, -⟩ :=
    bit_compress_expand 8 (by decide) 0xFF 0xAA (by decide) (by decide)
  have : bitCompressGeneric 8 0xFF 0xAA = some 0xF := by decide
  obtain rfl : packed = 0xF := Option.some_injective _ (hpacked.symm.trans this)
  exact hback

end Cccl.Bit
