/-
# `__independent_bits_engine`

A number of some bits is put together from outputs of another engine.  Each output gives a few bits, and is
rejected if it is not below the largest multiple of that power of two: then all values of these bits are as likely.
The bits are shared out as evenly as possible, so there are two widths and two thresholds.

The constructor computes with numbers that may wrap.  They do so only for an engine with all values of its type,
and then there is one draw without a threshold (`layout_of_full`); else each threshold is a multiple of its power of
two, positive, and not more than there are values (`layout_of_partial`).
-/
import Cccl.Charconv.ToChars
import Cccl.Lib.Rejection

namespace Cccl.Random

open Charconv (countlZero)

/-! ## 1. The engine below -/

/-- What is known of an engine when the program is compiled: the size and the digits of its result type, and its
smallest and its largest output.  Only `bool` has fewer digits than bits. -/
structure EngineRange where
  size : ℕ
  digits : ℕ
  min : ℕ
  max : ℕ
  supported : (size, digits) ∈ [(8, 1), (8, 8), (16, 16), (32, 32), (64, 64), (128, 128)]
  min_lt : min < max
  max_lt : max < 2 ^ digits

/-- `__bit_log2`.  All bits of the result are set for zero. -/
def bitLog2 (digits t : ℕ) : ℕ := (((digits : ℤ) - 1 - countlZero digits t) % 2 ^ 32).toNat

/-- The members that the constructor computes. -/
structure BitsLayout where
  w0 : ℕ
  n : ℕ
  n0 : ℕ
  y0 : ℕ
  y1 : ℕ
  mask0 : ℕ
  mask1 : ℕ
  deriving DecidableEq

namespace EngineRange

variable (E : EngineRange) (digits : ℕ)

/-- The digits of `_Working_result_type`, where the result has so many. -/
def workingDigits : ℕ := if E.size ≤ digits then digits else E.digits

def rp : ℕ := (E.max - E.min + 1) % 2 ^ E.workingDigits digits

/-- `_Rp` without its lowest bits, where so many may be shifted. -/
def dropBits (k : ℕ) : ℕ :=
  if k < E.workingDigits digits then (E.rp digits >>> k) <<< k % 2 ^ E.workingDigits digits else 0

/-- The constructor. -/
def layout (w : ℕ) : BitsLayout :=
  let m := bitLog2 (E.workingDigits digits) (E.rp digits)
  let n := w / m + if w % m ≠ 0 then 1 else 0
  let w0 := w / n
  let y0 := if E.rp digits = 0 then E.rp digits else E.dropBits digits w0
  let more := y0 / n < E.rp digits - y0
  let n := if more then n + 1 else n
  let w0 := if more then w / n else w0
  let y0 := if more then E.dropBits digits w0 else y0
  { w0 := w0
    n := n
    n0 := n - w % n
    y0 := y0
    y1 := E.dropBits digits (w0 + 1)
    mask0 := if 0 < w0 then (2 ^ E.digits - 1) >>> (E.digits - w0) else 0
    mask1 := if w0 < E.digits - 1 then (2 ^ E.digits - 1) >>> (E.digits - (w0 + 1)) else 2 ^ E.digits - 1 }

/-! ## 2. The draws -/

/-- `__e_() - _Engine::min()` until it is below a threshold, and the outputs that are left. -/
def draw (y : ℕ) : List ℕ → Option (ℕ × List ℕ)
  | [] => none
  | out :: outs =>
    let u := out - E.min
    if y ≤ u then draw y outs else some (u, outs)

/-- A number is shifted by so many bits, and the bits of a draw are added. -/
def shiftIn (w mask sp u : ℕ) : ℕ :=
  ((if w < digits then sp <<< w % 2 ^ digits else 0) + (u &&& mask)) % 2 ^ digits

/-- One of the loops of `operator()`. -/
def drawLoop (y w mask : ℕ) : ℕ → ℕ → List ℕ → Option (ℕ × List ℕ)
  | 0, sp, outs => some (sp, outs)
  | k + 1, sp, outs => (E.draw y outs).bind fun (u, outs) => drawLoop y w mask k (shiftIn digits w mask sp u) outs

/-- `operator()`. -/
def generate (b : BitsLayout) (outs : List ℕ) : Option (ℕ × List ℕ) :=
  if E.rp digits = 0 then
    match outs with
    | [] => none
    | out :: outs => some ((out &&& b.mask0) % 2 ^ digits, outs)
  else
    (E.drawLoop digits b.y0 b.w0 b.mask0 b.n0 0 outs).bind fun (sp, outs) =>
      E.drawLoop digits b.y1 (b.w0 + 1) b.mask1 (b.n - b.n0) sp outs

/-- The draws of a call.  An engine with all values of its type is not tested. -/
def draws (b : BitsLayout) : List Draw :=
  if E.rp digits = 0 then [⟨2 ^ E.digits, b.w0⟩]
  else List.replicate b.n0 ⟨b.y0, b.w0⟩ ++ List.replicate (b.n - b.n0) ⟨b.y1, b.w0 + 1⟩

/-- The test of a draw. -/
def test (d : Draw) (out : ℕ) : Bool := out - E.min < d.bound

/-! ## 3. The layout -/

/-- The number of different outputs. -/
def count : ℕ := E.max - E.min + 1

variable {E digits}

theorem two_le_count : 2 ≤ E.count := by
  have hlt := E.min_lt
  unfold count
  omega

theorem count_le : E.count ≤ 2 ^ E.digits := by
  have hlt := E.max_lt
  unfold count
  omega

theorem digits_cases : E.size = 8 ∧ E.digits = 1 ∨ E.digits = E.size ∧ 8 ≤ E.size ∧ E.size ≤ 128 := by
  obtain ⟨size, d, -, -, hsupported, -, -⟩ := E
  simp only [List.mem_cons, List.not_mem_nil, Prod.mk.injEq, or_false] at hsupported
  dsimp only
  omega

theorem digits_le_workingDigits : E.digits ≤ E.workingDigits digits := by
  unfold workingDigits
  rcases E.digits_cases with h | h <;> split <;> omega

theorem result_le_workingDigits (hdigits : 8 ≤ digits) : digits ≤ E.workingDigits digits := by
  unfold workingDigits
  rcases E.digits_cases with h | h <;> split <;> omega

theorem rp_eq_zero_iff : E.rp digits = 0 ↔ E.count = 2 ^ E.workingDigits digits := by
  have htwo := E.two_le_count
  have hpow : 2 ^ E.digits ≤ 2 ^ E.workingDigits digits :=
    Nat.pow_le_pow_right (by decide) digits_le_workingDigits
  have hle := E.count_le.trans hpow
  change E.count % _ = 0 ↔ _
  constructor
  · intro hzero
    by_contra hne
    rw [Nat.mod_eq_of_lt (lt_of_le_of_ne hle hne)] at hzero
    omega
  · intro heq
    rw [heq, Nat.mod_self]

theorem rp_of_ne_zero (h : E.rp digits ≠ 0) : E.rp digits = E.count ∧ E.count < 2 ^ E.workingDigits digits := by
  have hpow : 2 ^ E.digits ≤ 2 ^ E.workingDigits digits :=
    Nat.pow_le_pow_right (by decide) digits_le_workingDigits
  have hlt := lt_of_le_of_ne (E.count_le.trans hpow) (mt rp_eq_zero_iff.mpr h)
  exact ⟨Nat.mod_eq_of_lt hlt, hlt⟩

/-- The layout with a given number of draws. -/
def layoutWith (E : EngineRange) (digits w n : ℕ) : BitsLayout where
  w0 := w / n
  n := n
  n0 := n - w % n
  y0 := E.dropBits digits (w / n)
  y1 := E.dropBits digits (w / n + 1)
  mask0 := if 0 < w / n then (2 ^ E.digits - 1) >>> (E.digits - w / n) else 0
  mask1 := if w / n < E.digits - 1 then (2 ^ E.digits - 1) >>> (E.digits - (w / n + 1)) else 2 ^ E.digits - 1

theorem count_ne_zero : E.count ≠ 0 := Nat.succ_ne_zero _

theorem log2_count_le : E.count.log2 ≤ E.digits :=
  Nat.le_of_lt_succ ((Nat.log2_lt count_ne_zero).mpr (E.count_le.trans_lt (Nat.pow_lt_pow_succ (by decide))))

theorem bitLog2_rp (h : E.rp digits ≠ 0) : bitLog2 (E.workingDigits digits) (E.rp digits) = E.count.log2 := by
  obtain ⟨hrp, hlt⟩ := rp_of_ne_zero h
  have hne := E.count_ne_zero
  have hlog : E.count.log2 < E.workingDigits digits := (Nat.log2_lt hne).mpr hlt
  have hsmall : E.count.log2 ≤ E.digits := log2_count_le
  have hdigits : E.digits ≤ 128 := by
    rcases E.digits_cases with h | h <;> omega
  rw [hrp, bitLog2, countlZero, if_neg hne]
  omega

theorem ceil_spec {w m : ℕ} (hm : 0 < m) (hw : 0 < w) :
    0 < w / m + (if w % m ≠ 0 then 1 else 0) ∧ w ≤ (w / m + if w % m ≠ 0 then 1 else 0) * m := by
  have hdiv := Nat.div_add_mod w m
  have hmod := Nat.mod_lt w hm
  by_cases hzero : w % m = 0
  · rw [if_neg (not_not_intro hzero), Nat.add_zero]
    rw [hzero, Nat.add_zero] at hdiv
    exact ⟨Nat.pos_of_ne_zero fun h => by rw [h, Nat.mul_zero] at hdiv; omega, by rw [Nat.mul_comm]; exact hdiv.ge⟩
  · rw [if_pos hzero, Nat.add_mul, Nat.one_mul, Nat.mul_comm]
    exact ⟨Nat.succ_pos _, by omega⟩

/-- The constructor decides on a number of draws that is large enough for the bits of one output. -/
theorem exists_layoutWith (h : E.rp digits ≠ 0) {w : ℕ} (hw : 0 < w) :
    ∃ n, 0 < n ∧ w ≤ n * E.count.log2 ∧ E.layout digits w = layoutWith E digits w n := by
  have hlog : 0 < E.count.log2 := (Nat.le_log2 count_ne_zero).mpr E.two_le_count
  obtain ⟨hpos, hle⟩ := ceil_spec hlog hw
  simp only [layout, bitLog2_rp h, if_neg h]
  obtain ⟨n, hn⟩ : ∃ n, w / E.count.log2 + (if w % E.count.log2 ≠ 0 then 1 else 0) = n := ⟨_, rfl⟩
  rw [hn] at hpos hle ⊢
  split
  · refine ⟨n + 1, Nat.succ_pos n, hle.trans (Nat.mul_le_mul_right _ (Nat.le_succ n)), rfl⟩
  · exact ⟨n, hpos, hle, rfl⟩

/-- A threshold, where it is a multiple of a power of two that is not too large. -/
theorem dropBits_spec (h : E.rp digits ≠ 0) {k : ℕ} (hk : k ≤ E.count.log2) :
    2 ^ k ∣ E.dropBits digits k ∧ 0 < E.dropBits digits k ∧ E.dropBits digits k ≤ E.count := by
  obtain ⟨hrp, hlt⟩ := rp_of_ne_zero h
  have hne := E.count_ne_zero
  have hpow : 2 ^ k ≤ E.count := (Nat.le_log2 hne).mp hk
  have hdigits : k < E.workingDigits digits := hk.trans_lt ((Nat.log2_lt hne).mpr hlt)
  have hquotient : 0 < E.count / 2 ^ k := Nat.div_pos hpow (Nat.two_pow_pos k)
  have hle : E.count / 2 ^ k * 2 ^ k ≤ E.count := Nat.div_mul_le_self _ _
  rw [dropBits, if_pos hdigits, hrp, Nat.shiftRight_eq_div_pow, Nat.shiftLeft_eq, Nat.mod_eq_of_lt (hle.trans_lt hlt)]
  exact ⟨Nat.dvd_mul_left _ _, Nat.mul_pos hquotient (Nat.two_pow_pos k), hle⟩

theorem mask_eq {k d : ℕ} (hk : k ≤ d) : (2 ^ d - 1) >>> (d - k) = 2 ^ k - 1 := by
  have hpow : 2 ^ d = 2 ^ k * 2 ^ (d - k) := by rw [← Nat.pow_add, Nat.add_sub_cancel' hk]
  have hpos := Nat.two_pow_pos (d - k)
  have hsplit : 2 ^ d - 1 = 2 ^ (d - k) * (2 ^ k - 1) + (2 ^ (d - k) - 1) := by
    have hk1 : 1 ≤ 2 ^ k := Nat.two_pow_pos k
    rw [hpow, Nat.mul_sub, Nat.mul_one, Nat.mul_comm]
    have hle : 2 ^ (d - k) ≤ 2 ^ (d - k) * 2 ^ k := Nat.le_mul_of_pos_right _ hk1
    omega
  rw [Nat.shiftRight_eq_div_pow, hsplit, Nat.mul_add_div hpos, Nat.div_eq_of_lt (by omega), Nat.add_zero]

/-- What a layout has to keep for the loops to be right: the bits of all draws are those of the number, and what is
taken of an output is what its draw says. -/
structure Fits (E : EngineRange) (w : ℕ) (b : BitsLayout) : Prop where
  n0_pos : 0 < b.n0
  n0_le : b.n0 ≤ b.n
  total : b.n0 * b.w0 + (b.n - b.n0) * (b.w0 + 1) = w
  y0_dvd : 2 ^ b.w0 ∣ b.y0
  y0_pos : 0 < b.y0
  y0_le : b.y0 ≤ E.count
  mask0_eq : b.mask0 = 2 ^ b.w0 - 1
  y1_dvd : b.n0 < b.n → 2 ^ (b.w0 + 1) ∣ b.y1
  y1_pos : b.n0 < b.n → 0 < b.y1
  y1_le : b.n0 < b.n → b.y1 ≤ E.count
  mask1_eq : b.n0 < b.n → b.mask1 = 2 ^ (b.w0 + 1) - 1

/-- **The layout of an engine that has not all values of its type.** -/
theorem fits_layout (h : E.rp digits ≠ 0) {w : ℕ} (hw : 0 < w) : Fits E w (E.layout digits w) := by
  obtain ⟨n, hn, hle, hlayout⟩ := exists_layoutWith h hw
  have hdiv := Nat.div_add_mod w n
  have hmod := Nat.mod_lt w hn
  have hlog := E.log2_count_le
  have hw0 : w / n ≤ E.count.log2 := (Nat.div_le_div_right hle).trans (Nat.mul_div_cancel_left _ hn).le
  have hnext : n - w % n < n → w / n + 1 ≤ E.count.log2 := fun hlt => by
    by_contra hnot
    have hsame : w / n = E.count.log2 := by omega
    rw [hsame] at hdiv
    omega
  have hfirst := dropBits_spec h hw0
  rw [hlayout]
  constructor
  · exact Nat.sub_pos_of_lt hmod
  · exact Nat.sub_le _ _
  · have hrest : n - (n - w % n) = w % n := Nat.sub_sub_self hmod.le
    change (n - w % n) * (w / n) + (n - (n - w % n)) * (w / n + 1) = w
    rw [hrest, Nat.mul_succ, ← Nat.add_assoc, ← Nat.add_mul, Nat.sub_add_cancel hmod.le, hdiv]
  · exact hfirst.1
  · exact hfirst.2.1
  · exact hfirst.2.2
  · change (if 0 < w / n then _ else 0) = 2 ^ (w / n) - 1
    split
    · exact mask_eq (hw0.trans hlog)
    · rename_i hzero
      rw [Nat.eq_zero_of_not_pos hzero]
      rfl
  · exact fun hlt => (dropBits_spec h (hnext hlt)).1
  · exact fun hlt => (dropBits_spec h (hnext hlt)).2.1
  · exact fun hlt => (dropBits_spec h (hnext hlt)).2.2
  · intro hlt
    have hbits := (hnext hlt).trans hlog
    change (if w / n < E.digits - 1 then _ else _) = 2 ^ (w / n + 1) - 1
    split
    · exact mask_eq hbits
    · have hall : w / n + 1 = E.digits := by omega
      rw [hall]

/-- **The layout of an engine that has all values of its type**: one draw, which is not tested. -/
theorem layout_of_full (h : E.rp digits = 0) (hdigits : 8 ≤ digits) (hdigits' : digits ≤ 128) {w : ℕ} (hw : 0 < w)
    (hw' : w ≤ digits) : w ≤ E.digits ∧ (E.layout digits w).w0 = w ∧ (E.layout digits w).mask0 = 2 ^ w - 1 := by
  have hfull := rp_eq_zero_iff.mp h
  have hdigitsE : E.workingDigits digits ≤ E.digits :=
    (Nat.pow_le_pow_iff_right (by decide)).mp (hfull ▸ E.count_le)
  have hresult := E.result_le_workingDigits hdigits
  have hbits : w ≤ E.digits := by omega
  have hlog : bitLog2 (E.workingDigits digits) 0 = 2 ^ 32 - 1 := by
    rw [bitLog2, countlZero, if_pos rfl]
    omega
  have hone : w / (2 ^ 32 - 1) + (if w % (2 ^ 32 - 1) ≠ 0 then 1 else 0) = 1 := by
    rw [Nat.div_eq_of_lt (by omega), Nat.mod_eq_of_lt (by omega), if_pos (by omega)]
  simp only [layout, h, hlog, hone, if_true, Nat.div_one, Nat.sub_self, Nat.lt_irrefl, if_false]
  rw [if_pos hw]
  exact ⟨hbits, trivial, mask_eq hbits⟩

/-! ## 4. The draws of a call -/

/-- A width that may be asked for. -/
structure WidthFits (digits w : ℕ) : Prop where
  digits_ge : 8 ≤ digits
  digits_le : digits ≤ 128
  pos : 0 < w
  le : w ≤ digits

/-- **Each draw accepts as many outputs with one value of its bits as with another**, and at least one. -/
theorem draws_spec {w : ℕ} (hw : WidthFits digits w) : ∀ d ∈ E.draws digits (E.layout digits w),
    d.Even ∧ 0 < d.bound ∧ d.bound ≤ E.count := by
  intro d hd
  rw [draws] at hd
  split at hd
  · rename_i hzero
    obtain ⟨hbits, hw0, -⟩ := layout_of_full hzero hw.digits_ge hw.digits_le hw.pos hw.le
    obtain rfl := List.mem_singleton.mp hd
    have hfull := rp_eq_zero_iff.mp hzero
    have hle : 2 ^ E.digits ≤ 2 ^ E.workingDigits digits :=
      Nat.pow_le_pow_right (by decide) digits_le_workingDigits
    refine ⟨?_, Nat.two_pow_pos _, hfull ▸ hle⟩
    rw [Draw.Even, hw0]
    exact Nat.pow_dvd_pow 2 hbits
  · rename_i hne
    have hfits := fits_layout hne hw.pos
    rcases List.mem_append.mp hd with hd | hd
    · obtain ⟨-, rfl⟩ := List.mem_replicate.mp hd
      exact ⟨hfits.y0_dvd, hfits.y0_pos, hfits.y0_le⟩
    · obtain ⟨hk, rfl⟩ := List.mem_replicate.mp hd
      have hlt : (E.layout digits w).n0 < (E.layout digits w).n := by omega
      exact ⟨hfits.y1_dvd hlt, hfits.y1_pos hlt, hfits.y1_le hlt⟩

/-- **The draws give all bits of the number.** -/
theorem totalBits_draws {w : ℕ} (hw : WidthFits digits w) :
    Draw.totalBits (E.draws digits (E.layout digits w)) = w := by
  rw [draws]
  split
  · rename_i hzero
    exact (layout_of_full hzero hw.digits_ge hw.digits_le hw.pos hw.le).2.1
  · rename_i hne
    rw [Draw.totalBits_append, Draw.totalBits_replicate, Draw.totalBits_replicate]
    exact (fits_layout hne hw.pos).total

/-! ## 5. The loops -/

/-- The numbers that the draws accept, and the outputs after them. -/
def numbers (E : EngineRange) (ds : List Draw) (outs : List ℕ) : Option (List ℕ × List ℕ) :=
  (acceptEach (ds.map E.test) outs).map (Prod.map (List.map (· - E.min)) id)

theorem numbers_cons (d : Draw) (ds : List Draw) : ∀ outs : List ℕ, E.numbers (d :: ds) outs =
    (E.draw d.bound outs).bind fun r => (E.numbers ds r.2).map (Prod.map (r.1 :: ·) id)
  | [] => rfl
  | out :: outs => by
    have hrest := numbers_cons d ds outs
    rw [numbers, List.map_cons, acceptEach, draw]
    by_cases hlt : out - E.min < d.bound
    · rw [if_pos (by rw [test]; exact decide_eq_true hlt)]
      rw [if_neg (Nat.not_le.mpr hlt), Option.bind_some, numbers, Option.map_map, Option.map_map]
      rfl
    · rw [if_neg (by rw [test, decide_eq_false hlt]; decide)]
      rw [if_pos (Nat.not_lt.mp hlt)]
      exact hrest

theorem numbers_nil (outs : List ℕ) : E.numbers [] outs = some ([], outs) := by
  rw [numbers, List.map_nil, acceptEach]
  rfl

theorem numbers_append (ds es : List Draw) (outs : List ℕ) : E.numbers (ds ++ es) outs =
    (E.numbers ds outs).bind fun r => (E.numbers es r.2).map (Prod.map (r.1 ++ ·) id) := by
  simp only [numbers, List.map_append, acceptEach_append_tests]
  cases acceptEach (ds.map E.test) outs with
  | none => rfl
  | some r =>
    simp only [Option.bind_some, Option.map_some, Option.map_map]
    refine congrArg (fun f => Option.map f _) (funext fun r' => ?_)
    exact Prod.ext List.map_append rfl

theorem numbers_length {ds : List Draw} {outs us rest : List ℕ} (h : E.numbers ds outs = some (us, rest)) :
    us.length = ds.length := by
  obtain ⟨⟨us', rest'⟩, haccept, heq⟩ := Option.map_eq_some_iff.mp h
  obtain ⟨rfl, rfl⟩ := Prod.mk.injEq _ _ _ _ ▸ heq
  rw [List.length_map, (acceptEach_length haccept).1, List.length_map]

theorem shiftIn_eq {w sp u b : ℕ} (hsp : sp < 2 ^ b) (hbits : b + w ≤ digits) :
    shiftIn digits w (2 ^ w - 1) sp u = 2 ^ w * sp + u % 2 ^ w := by
  have hlow : u % 2 ^ w < 2 ^ w := Nat.mod_lt _ (Nat.two_pow_pos w)
  have hsum : 2 ^ w * sp + u % 2 ^ w < 2 ^ digits := by
    calc 2 ^ w * sp + u % 2 ^ w < 2 ^ w * sp + 2 ^ w := Nat.add_lt_add_left hlow _
      _ = 2 ^ w * (sp + 1) := (Nat.mul_succ _ _).symm
      _ ≤ 2 ^ w * 2 ^ b := Nat.mul_le_mul_left _ hsp
      _ = 2 ^ (b + w) := by rw [← Nat.pow_add, Nat.add_comm]
      _ ≤ 2 ^ digits := Nat.pow_le_pow_right (by decide) hbits
  rw [shiftIn, Nat.and_two_pow_sub_one_eq_mod, Nat.shiftLeft_eq, Nat.mul_comm sp]
  split
  · rw [Nat.mod_eq_of_lt ((Nat.le_add_right _ _).trans_lt hsum), Nat.mod_eq_of_lt hsum]
  · rename_i hw
    -- a shift by all bits is for the first draw only
    obtain ⟨rfl, rfl⟩ : b = 0 ∧ w = digits := by omega
    obtain rfl : sp = 0 := Nat.lt_one_iff.mp hsp
    rw [Nat.mul_zero, Nat.zero_add, Nat.mod_eq_of_lt hlow]

/-- **A loop appends its digits.** -/
theorem drawLoop_eq {y w : ℕ} : ∀ (k : ℕ) {sp b : ℕ} (outs : List ℕ), sp < 2 ^ b → b + k * w ≤ digits →
    E.drawLoop digits y w (2 ^ w - 1) k sp outs = (E.numbers (List.replicate k ⟨y, w⟩) outs).map
      (Prod.map (fun us => 2 ^ (k * w) * sp + Draw.value (List.replicate k ⟨y, w⟩) us) id)
  | 0, sp, b, outs, _, _ => by
    rw [drawLoop, Nat.zero_mul, Nat.pow_zero, Nat.one_mul, List.replicate_zero, numbers_nil]
    rfl
  | k + 1, sp, b, outs, hsp, hbits => by
    rw [Nat.succ_mul] at hbits
    rw [List.replicate_succ, numbers_cons, drawLoop, Option.map_bind]
    refine congrArg _ (funext fun r => ?_)
    obtain ⟨u, outs⟩ := r
    have hlow : u % 2 ^ w < 2 ^ w := Nat.mod_lt _ (Nat.two_pow_pos w)
    have hnext : 2 ^ w * sp + u % 2 ^ w < 2 ^ (b + w) := by
      rw [Nat.add_comm b, Nat.pow_add]
      calc 2 ^ w * sp + u % 2 ^ w < 2 ^ w * (sp + 1) := by rw [Nat.mul_succ]; omega
        _ ≤ 2 ^ w * 2 ^ b := Nat.mul_le_mul_left _ hsp
    dsimp only [Function.comp_apply]
    rw [shiftIn_eq hsp (by omega), drawLoop_eq k outs hnext (by omega), Option.map_map]
    refine congrArg (fun f => Option.map f _) (funext fun r => ?_)
    obtain ⟨us, rest⟩ := r
    simp only [Prod.map_apply, Function.comp_apply, id_eq, Draw.value, Draw.totalBits_replicate, Nat.succ_mul,
      Nat.pow_add, Nat.mul_add, Nat.mul_assoc, Nat.add_assoc]

/-- **`operator()` gives the number whose digits are drawn.** -/
theorem generate_eq {w : ℕ} (hw : WidthFits digits w) {outs : List ℕ} (houts : ∀ out ∈ outs, out ≤ E.max) :
    E.generate digits (E.layout digits w) outs = (E.numbers (E.draws digits (E.layout digits w)) outs).map
      (Prod.map (Draw.value (E.draws digits (E.layout digits w))) id) := by
  have htotal := E.totalBits_draws hw
  unfold generate
  rw [draws] at htotal ⊢
  split
  · rename_i hzero
    obtain ⟨hbits, hw0, hmask⟩ := layout_of_full hzero hw.digits_ge hw.digits_le hw.pos hw.le
    rw [hw0, hmask]
    cases outs with
    | nil => rfl
    | cons out outs =>
      have hout := List.forall_mem_cons.mp houts
      have hlt : out - E.min < 2 ^ E.digits := (Nat.sub_le _ _).trans_lt (hout.1.trans_lt E.max_lt)
      have hmin : E.min = 0 := by
        have hfull := rp_eq_zero_iff.mp hzero
        have hle : 2 ^ E.digits ≤ 2 ^ E.workingDigits digits :=
          Nat.pow_le_pow_right (by decide) digits_le_workingDigits
        have hmax := E.max_lt
        have hmin := E.min_lt
        unfold count at hfull
        omega
      have hsmall : out % 2 ^ w < 2 ^ digits :=
        (Nat.mod_lt _ (Nat.two_pow_pos w)).trans_le (Nat.pow_le_pow_right (by decide) hw.le)
      rw [numbers_cons, draw]
      dsimp only
      rw [if_neg (Nat.not_le.mpr hlt), Nat.and_two_pow_sub_one_eq_mod, Nat.mod_eq_of_lt hsmall, hmin,
        Option.bind_some, numbers_nil]
      exact congrArg (fun v => some (v, outs)) (Nat.one_mul _).symm
  · rename_i hne
    have hfits := fits_layout hne hw.pos
    obtain ⟨b, hb⟩ : ∃ b, E.layout digits w = b := ⟨_, rfl⟩
    rw [hb] at hfits htotal ⊢
    rw [if_neg hne, Draw.totalBits_append, Draw.totalBits_replicate, Draw.totalBits_replicate] at htotal
    have hroom : b.n0 * b.w0 + (b.n - b.n0) * (b.w0 + 1) ≤ digits := htotal.le.trans hw.le
    rw [hfits.mask0_eq, drawLoop_eq b.n0 outs (Nat.two_pow_pos 0) (by omega), numbers_append]
    cases hfirst : E.numbers (List.replicate b.n0 ⟨b.y0, b.w0⟩) outs with
    | none => rfl
    | some r =>
      obtain ⟨us, rest⟩ := r
      have hlength := numbers_length hfirst
      have hvalue := Draw.value_lt (List.replicate b.n0 ⟨b.y0, b.w0⟩) us
      rw [Draw.totalBits_replicate] at hvalue
      -- the mask of the second loop is right where the loop is not empty
      have hsecond : ∀ sp, sp < 2 ^ (b.n0 * b.w0) → E.drawLoop digits b.y1 (b.w0 + 1) b.mask1 (b.n - b.n0) sp rest =
          (E.numbers (List.replicate (b.n - b.n0) ⟨b.y1, b.w0 + 1⟩) rest).map
            (Prod.map (fun us => 2 ^ ((b.n - b.n0) * (b.w0 + 1)) * sp +
              Draw.value (List.replicate (b.n - b.n0) ⟨b.y1, b.w0 + 1⟩) us) id) := by
        intro sp hsp
        by_cases hlt : b.n0 < b.n
        · rw [hfits.mask1_eq hlt, drawLoop_eq _ rest hsp hroom]
        · rw [Nat.sub_eq_zero_of_le (Nat.not_lt.mp hlt), List.replicate_zero, numbers_nil, Nat.zero_mul,
            Nat.pow_zero]
          exact congrArg (fun v => some (v, rest)) (Nat.one_mul sp).symm
      simp only [Option.map_some, Option.bind_some, Prod.map_apply, id_eq, Nat.mul_zero, Nat.zero_add]
      rw [hsecond _ hvalue, Option.map_map]
      refine congrArg (fun f => Option.map f _) (funext fun r' => ?_)
      simp only [Function.comp_apply, Prod.map, id_eq, Draw.value_append _ _ hlength, Draw.totalBits_replicate]

end EngineRange

end Cccl.Random
