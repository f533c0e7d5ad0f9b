/-
# `uniform_int_distribution`

The number of values is computed in an unsigned type, where it may wrap to zero: then all values of the type are
wanted, and as many bits are drawn.  Else so many bits are drawn that the number of values is at most their power
of two, and a number that is too large is rejected.

Both the numbers that are drawn (`generate_eq`) and the way from them to the values (`result_bijective`) are exact, so
all values come from the same number of tuples of outputs (`uniformInt_exact`).
-/
import Cccl.Random.IndependentBits
import Mathlib

namespace Cccl.Random

open Charconv (countlZero)
open IntegerTypes

/-! ## 1. The distribution -/

/-- A distribution with its parameters. -/
structure UniformInt (m : DataModel) where
  T : IntegerType
  a : ℤ
  b : ℤ
  has_a : T.Has m a
  has_b : T.Has m b
  le : a ≤ b

namespace UniformInt

variable {m : DataModel} (D : UniformInt m) (E : EngineRange)

/-- The digits of `_UIntType`. -/
def digits : ℕ := if D.T.bits m ≤ 32 then 32 else D.T.bits m

def rp : ℕ := ((D.b % 2 ^ D.digits - D.a % 2 ^ D.digits + 1) % 2 ^ D.digits).toNat

/-- `__w`, where the number of values is neither zero nor one. -/
def width : ℕ :=
  let w := D.digits - countlZero D.digits D.rp - 1
  if D.rp &&& ((2 ^ D.digits - 1) >>> (D.digits - w)) ≠ 0 then w + 1 else w

/-- The loop that rejects numbers that are too large. -/
def drawBelow (b : BitsLayout) : ℕ → List ℕ → Option (ℕ × List ℕ)
  | 0, _ => none
  | fuel + 1, outs => (E.generate D.digits b outs).bind fun r =>
    if D.rp ≤ r.1 then drawBelow b fuel r.2 else some r

/-- `operator()`, on the outputs of the engine. -/
def call (fuel : ℕ) (outs : List ℕ) : Option (ℤ × List ℕ) :=
  if D.rp = 1 then some (D.a, outs)
  else if D.rp = 0 then
    (E.generate D.digits (E.layout D.digits D.digits) outs).map fun r => (D.T.staticCast m r.1, r.2)
  else
    (D.drawBelow E (E.layout D.digits D.width) fuel outs).map fun r =>
      (D.T.staticCast m ((r.1 + D.a) % 2 ^ D.digits), r.2)

/-- The draws of a number, with their thresholds. -/
def draws : List Draw :=
  if D.rp = 1 then []
  else E.draws D.digits (E.layout D.digits (if D.rp = 0 then D.digits else D.width))

/-- The number of values. -/
def count : ℕ := (D.b - D.a + 1).toNat

/-- The number that is put together from so many outputs is not too large. -/
def accepts (outs : List ℕ) : Bool := Draw.value (D.draws E) (outs.map (· - E.min)) < D.count

/-- A stream of outputs that is rejected for ever, by the threshold of a draw or whenever a number is there. -/
def Rejected (s : Stream' ℕ) : Prop := RejectedForever ((D.draws E).map E.test) (D.accepts E) s

/-- The tuples of accepted outputs that lead to a value. -/
def tuples (v : ℤ) : Set (List ℕ) :=
  {outs | outs.length = (D.draws E).length ∧ (∀ out ∈ outs, E.min ≤ out ∧ out ≤ E.max) ∧
    D.call E 1 outs = some (v, [])}

/-! ## 2. The number of values -/

variable {D E}

theorem bits_le_digits : D.T.bits m ≤ D.digits := by
  unfold digits
  split <;> omega

theorem digits_bounds : 32 ≤ D.digits ∧ D.digits ≤ 128 := by
  have hbits : D.T.bits m ≤ 128 := by
    change D.T.rank.bits m ≤ 128
    cases m <;> cases D.T.rank <;> decide
  unfold digits
  split <;> omega

theorem has_of_between {v : ℤ} (ha : D.a ≤ v) (hb : v ≤ D.b) : D.T.Has m v :=
  ⟨D.has_a.1.trans ha, hb.trans D.has_b.2⟩

theorem count_cast : (D.count : ℤ) = D.b - D.a + 1 := by
  have hle := D.le
  unfold count
  omega

/-- There are not more values than the type has, and if so many, all values are wanted. -/
theorem count_le : D.count ≤ 2 ^ D.T.bits m ∧ (D.count = 2 ^ D.T.bits m → ∀ v, D.T.Has m v → D.a ≤ v ∧ v ≤ D.b) := by
  have hcount := D.count_cast
  have hmin := D.has_a.1
  have hmax := D.has_b.lt
  have hpow : (2 : ℤ) ^ D.T.bits m = ((2 ^ D.T.bits m : ℕ) : ℤ) := (Nat.cast_pow 2 _).symm
  have hall : (2 : ℤ) ^ D.T.digits m - D.T.min m = 2 ^ D.T.bits m := by
    rw [IntegerType.min]
    split
    · rename_i hsigned
      rw [← IntegerType.digits_of_signed hsigned, pow_succ]
      omega
    · rename_i hsigned
      rw [IntegerType.digits_of_unsigned (Bool.eq_false_iff.mpr hsigned), sub_zero]
  refine ⟨by omega, fun heq v hv => ?_⟩
  have hlt := hv.lt
  have hge := hv.1
  omega

theorem rp_eq_mod : D.rp = D.count % 2 ^ D.digits := by
  have hcast : ((D.count % 2 ^ D.digits : ℕ) : ℤ) = (D.b - D.a + 1) % 2 ^ D.digits := by
    rw [Int.natCast_mod, count_cast, Nat.cast_pow]
    rfl
  have hmod : (D.b % 2 ^ D.digits - D.a % 2 ^ D.digits + 1) % 2 ^ D.digits =
      (D.b - D.a + 1) % 2 ^ D.digits := by
    rw [Int.add_emod, ← Int.sub_emod, ← Int.add_emod]
  rw [rp, hmod, ← hcast, Int.toNat_natCast]

theorem count_pos : 0 < D.count := by
  have hle := D.le
  have hcount := D.count_cast
  omega

theorem count_le_digits : D.count ≤ 2 ^ D.digits :=
  D.count_le.1.trans (Nat.pow_le_pow_right (by decide) D.bits_le_digits)

/-- The number of values wraps only where all values of a type as wide as the unsigned one are wanted. -/
theorem rp_eq_zero_iff : D.rp = 0 ↔ D.count = 2 ^ D.digits := by
  rw [rp_eq_mod]
  constructor
  · intro hzero
    by_contra hne
    rw [Nat.mod_eq_of_lt (lt_of_le_of_ne D.count_le_digits hne)] at hzero
    exact absurd hzero D.count_pos.ne'
  · intro heq
    rw [heq, Nat.mod_self]

theorem rp_of_ne_zero (h : D.rp ≠ 0) : D.rp = D.count := by
  rw [rp_eq_mod]
  exact Nat.mod_eq_of_lt (lt_of_le_of_ne D.count_le_digits (mt rp_eq_zero_iff.mpr h))

/-- **So many bits** are enough for the number of values. -/
theorem width_spec (h0 : D.rp ≠ 0) (h1 : D.rp ≠ 1) :
    D.count ≤ 2 ^ D.width ∧ EngineRange.WidthFits D.digits D.width := by
  have hdigits := D.digits_bounds
  have hcount := D.rp_of_ne_zero h0
  have hne : D.count ≠ 0 := D.count_pos.ne'
  have hlt : D.count < 2 ^ D.digits := lt_of_le_of_ne D.count_le_digits (mt rp_eq_zero_iff.mpr h0)
  have hlog : D.count.log2 < D.digits := (Nat.log2_lt hne).mpr hlt
  have hpos : 0 < D.count.log2 := (Nat.le_log2 hne).mpr (by omega)
  have hlead : D.digits - countlZero D.digits D.count - 1 = D.count.log2 := by
    rw [countlZero, if_neg hne]
    omega
  have hself : 2 ^ D.count.log2 ≤ D.count := (Nat.le_log2 hne).mp (le_refl _)
  have hnext : D.count < 2 ^ (D.count.log2 + 1) := (Nat.log2_lt hne).mp (Nat.lt_succ_self _)
  have hwidth : D.width = if D.count % 2 ^ D.count.log2 ≠ 0 then D.count.log2 + 1 else D.count.log2 := by
    simp only [width, hcount, hlead, EngineRange.mask_eq hlog.le, Nat.and_two_pow_sub_one_eq_mod]
  rw [hwidth]
  split
  · exact ⟨hnext.le, by omega, hdigits.2, Nat.succ_pos _, hlog⟩
  · rename_i hzero
    obtain ⟨q, hq⟩ := Nat.dvd_of_mod_eq_zero (not_not.mp hzero)
    rw [Nat.pow_succ] at hnext
    obtain rfl : q = 1 := by
      have hq2 : q < 2 := Nat.lt_of_mul_lt_mul_left (hq.symm.trans_lt hnext)
      have hq0 : q ≠ 0 := fun h => hne (by rw [hq, h, Nat.mul_zero])
      omega
    exact ⟨(hq.trans (Nat.mul_one _)).le, by omega, hdigits.2, hpos, hlog.le⟩

/-! ## 3. From the numbers to the values -/

/-- The value of a number. -/
def result (D : UniformInt m) (u : ℕ) : ℤ :=
  if D.rp = 0 then D.T.staticCast m u else D.T.staticCast m ((u + D.a) % 2 ^ D.digits)

/-- **Each value is the value of one number.** -/
theorem result_bijective (D : UniformInt m) : Set.BijOn D.result (Set.Iio D.count) (Set.Icc D.a D.b) := by
  have hcount := D.count_cast
  have hdvd : (2 ^ D.T.bits m : ℤ) ∣ 2 ^ D.digits := pow_dvd_pow 2 D.bits_le_digits
  by_cases hzero : D.rp = 0
  · have hfull := D.rp_eq_zero_iff.mp hzero
    have hbits : D.T.bits m = D.digits :=
      Nat.le_antisymm D.bits_le_digits ((Nat.pow_le_pow_iff_right (by decide)).mp (hfull ▸ D.count_le.1))
    have hall := D.count_le.2 (hbits ▸ hfull)
    have hresult : ∀ u, D.result u = D.T.staticCast m u := fun u => if_pos hzero
    refine ⟨fun u _ => ?_, fun u hu u' hu' heq => ?_, fun v hv => ?_⟩
    · rw [hresult]
      exact hall _ (IntegerType.has_staticCast _)
    · rw [hresult, hresult] at heq
      have hsub := dvd_sub (IntegerType.dvd_staticCast_sub (m := m) (T := D.T) (u' : ℤ))
        (IntegerType.dvd_staticCast_sub (m := m) (T := D.T) (u : ℤ))
      rw [heq, sub_sub_sub_cancel_left] at hsub
      have hmod : u ≡ u' [MOD 2 ^ D.T.bits m] := by
        refine (Nat.modEq_iff_dvd.mpr ?_).symm
        rw [Nat.cast_pow]
        exact hsub
      rw [Set.mem_Iio, hfull, ← hbits] at hu hu'
      exact hmod.eq_of_lt_of_lt hu hu'
    · refine ⟨(v % 2 ^ D.digits).toNat, ?_, ?_⟩
      · have hlt := Int.emod_lt_of_pos v (pow_pos (by decide : (0 : ℤ) < 2) D.digits)
        have hpow : (2 : ℤ) ^ D.digits = ((2 ^ D.digits : ℕ) : ℤ) := (Nat.cast_pow 2 _).symm
        rw [Set.mem_Iio, hfull]
        omega
      · have hnonneg := Int.emod_nonneg v (pow_ne_zero D.digits (by decide : (2 : ℤ) ≠ 0))
        rw [hresult, Int.toNat_of_nonneg hnonneg]
        refine IntegerType.staticCast_eq (has_of_between hv.1 hv.2) (hdvd.trans ?_)
        exact Int.dvd_emod_sub_self
  · have hresult : ∀ u : ℕ, u < D.count → D.result u = u + D.a := fun u hu => by
      rw [result, if_neg hzero]
      exact IntegerType.staticCast_eq (has_of_between (by omega) (by omega)) (hdvd.trans Int.dvd_emod_sub_self)
    refine ⟨fun u hu => ?_, fun u hu u' hu' heq => ?_, fun v hv => ?_⟩
    · rw [hresult u hu]
      rw [Set.mem_Iio] at hu
      exact ⟨by omega, by omega⟩
    · rw [hresult u hu, hresult u' hu'] at heq
      omega
    · obtain ⟨hva, hvb⟩ := hv
      have hlt : (v - D.a).toNat < D.count := by omega
      refine ⟨(v - D.a).toNat, hlt, ?_⟩
      rw [hresult _ hlt]
      omega

/-! ## 4. The loops -/

theorem draws_spec (D : UniformInt m) (E : EngineRange) :
    (∀ d ∈ D.draws E, d.Even ∧ 0 < d.bound ∧ d.bound ≤ E.count) ∧ D.count ≤ 2 ^ Draw.totalBits (D.draws E) := by
  have hdigits := D.digits_bounds
  rw [draws]
  split
  · rename_i hone
    refine ⟨fun d hd => absurd hd (List.not_mem_nil), ?_⟩
    rw [← D.rp_of_ne_zero (by omega), hone]
    exact le_refl 1
  · rename_i hone
    split
    · have hfits : EngineRange.WidthFits D.digits D.digits := ⟨by omega, hdigits.2, by omega, le_refl _⟩
      rw [EngineRange.totalBits_draws hfits]
      exact ⟨EngineRange.draws_spec hfits, D.count_le_digits⟩
    · rename_i hzero
      obtain ⟨hle, hfits⟩ := D.width_spec hzero hone
      rw [EngineRange.totalBits_draws hfits]
      exact ⟨EngineRange.draws_spec hfits, hle⟩

/-- What the draws give for a number. -/
def taken (D : UniformInt m) (E : EngineRange) (r : List ℕ × List ℕ) : ℕ × List ℕ :=
  (Draw.value (D.draws E) (r.1.map (· - E.min)), r.2)

theorem generate_eq_taken {w : ℕ} (hw : EngineRange.WidthFits D.digits w)
    (hdraws : D.draws E = E.draws D.digits (E.layout D.digits w)) {outs : List ℕ} (houts : ∀ out ∈ outs, out ≤ E.max) :
    E.generate D.digits (E.layout D.digits w) outs =
      (acceptEach ((D.draws E).map E.test) outs).map (D.taken E) := by
  rw [EngineRange.generate_eq hw houts, ← hdraws, EngineRange.numbers, Option.map_map]
  rfl

theorem drawBelow_eq (h0 : D.rp ≠ 0) (h1 : D.rp ≠ 1) : ∀ (fuel : ℕ) {outs : List ℕ}, (∀ out ∈ outs, out ≤ E.max) →
    D.drawBelow E (E.layout D.digits D.width) fuel outs =
      (sample ((D.draws E).map E.test) (D.accepts E) fuel outs).map (D.taken E)
  | 0, _, _ => rfl
  | fuel + 1, outs, houts => by
    have hdraws : D.draws E = E.draws D.digits (E.layout D.digits D.width) := by
      rw [draws, if_neg h1, if_neg h0]
    rw [drawBelow, sample, generate_eq_taken (D.width_spec h0 h1).2 hdraws houts]
    cases haccept : acceptEach ((D.draws E).map E.test) outs with
    | none => rfl
    | some r =>
      have hrest : ∀ out ∈ r.2, out ≤ E.max := fun out hout => houts out (acceptEach_subset haccept hout)
      rw [Option.map_some, Option.bind_some, Option.bind_some, rp_of_ne_zero h0]
      by_cases hlt : (D.taken E r).1 < D.count
      · have haccepts : D.accepts E r.1 = true := decide_eq_true hlt
        rw [if_neg (Nat.not_le.mpr hlt), if_pos haccepts]
        rfl
      · have haccepts : ¬ D.accepts E r.1 = true := fun h => hlt (of_decide_eq_true h)
        rw [if_pos (Nat.not_lt.mp hlt), if_neg haccepts]
        exact drawBelow_eq h0 h1 fuel hrest

theorem sample_of_full (hfull : 2 ^ Draw.totalBits (D.draws E) ≤ D.count) (fuel : ℕ) (outs : List ℕ) :
    sample ((D.draws E).map E.test) (D.accepts E) (fuel + 1) outs = acceptEach ((D.draws E).map E.test) outs := by
  rw [sample]
  cases acceptEach ((D.draws E).map E.test) outs with
  | none => rfl
  | some r =>
    have haccepts : D.accepts E r.1 = true := decide_eq_true ((Draw.value_lt _ _).trans_le hfull)
    rw [Option.bind_some, if_pos haccepts]

/-- **`operator()` is a sampler**, whose numbers become values. -/
theorem call_eq (fuel : ℕ) {outs : List ℕ} (houts : ∀ out ∈ outs, out ≤ E.max) : D.call E (fuel + 1) outs =
    (sample ((D.draws E).map E.test) (D.accepts E) (fuel + 1) outs).map fun r =>
      (D.result (D.taken E r).1, r.2) := by
  have hdigits := D.digits_bounds
  unfold call
  split
  · rename_i hone
    have hdraws : D.draws E = [] := if_pos hone
    have hresult : D.result 0 = D.a := by
      have hcount : D.count = 1 := D.rp_of_ne_zero (by omega) ▸ hone
      have hmaps := (D.result_bijective).mapsTo (show 0 ∈ Set.Iio D.count by rw [hcount]; exact Nat.zero_lt_one)
      have hcast := D.count_cast
      obtain ⟨ha, hb⟩ := hmaps
      omega
    rw [sample_of_full (by rw [hdraws]; exact D.count_pos), hdraws, List.map_nil, acceptEach, Option.map_some]
    simp only [taken, hdraws, List.map_nil, Draw.value, hresult]
  · rename_i hone
    split
    · rename_i hzero
      have hdraws : D.draws E = E.draws D.digits (E.layout D.digits D.digits) := by
        rw [draws, if_neg hone, if_pos hzero]
      have hfits : EngineRange.WidthFits D.digits D.digits := ⟨by omega, hdigits.2, by omega, le_refl _⟩
      have hfull : 2 ^ Draw.totalBits (D.draws E) ≤ D.count := by
        rw [hdraws, EngineRange.totalBits_draws hfits, D.rp_eq_zero_iff.mp hzero]
      rw [generate_eq_taken hfits hdraws houts, sample_of_full hfull, Option.map_map]
      refine congrArg (fun f => Option.map f _) (funext fun r => ?_)
      exact congrArg (fun v => (v, r.2)) (if_pos hzero).symm
    · rename_i hzero
      rw [drawBelow_eq hzero hone _ houts, Option.map_map]
      refine congrArg (fun f => Option.map f _) (funext fun r => ?_)
      exact congrArg (fun v => (v, r.2)) (if_neg hzero).symm

theorem call_zero {outs : List ℕ} {r : ℤ × List ℕ} (h : D.call E 0 outs = some r) : D.call E 1 outs = some r := by
  unfold call at h ⊢
  split_ifs at h ⊢
  · exact h
  · exact h
  · exact absurd h (by simp [drawBelow])

/-- **The value is one of those that are wanted.** -/
theorem call_mem {fuel : ℕ} {outs rest : List ℕ} {v : ℤ} (houts : ∀ out ∈ outs, out ≤ E.max)
    (h : D.call E fuel outs = some (v, rest)) : D.a ≤ v ∧ v ≤ D.b := by
  obtain ⟨fuel, h⟩ : ∃ fuel, D.call E (fuel + 1) outs = some (v, rest) := by
    cases fuel with
    | zero => exact ⟨0, call_zero h⟩
    | succ fuel => exact ⟨fuel, h⟩
  rw [call_eq fuel houts] at h
  obtain ⟨r, hsample, heq⟩ := Option.map_eq_some_iff.mp h
  obtain ⟨rfl, rfl⟩ := Prod.mk.injEq _ _ _ _ ▸ heq
  exact D.result_bijective.mapsTo (of_decide_eq_true (sample_ok hsample))

/-- **A stream gives a value** if and only if it is not rejected for ever. -/
theorem exists_call_iff {s : Stream' ℕ} (hs : ∀ i, s.get i ≤ E.max) :
    (∃ fuel N r, D.call E fuel (s.take N) = some r) ↔ ¬ D.Rejected E s := by
  have houts : ∀ N, ∀ out ∈ s.take N, out ≤ E.max := fun N out hout => by
    obtain ⟨i, hi, rfl⟩ := List.getElem_of_mem hout
    rw [← Option.some_inj.mp ((Stream'.getElem?_take (by simpa using hi)).symm.trans (List.getElem?_eq_getElem hi))]
    exact hs i
  rw [Rejected, ← exists_sample_iff]
  constructor
  · rintro ⟨fuel, N, r, h⟩
    obtain ⟨fuel, h⟩ : ∃ fuel, D.call E (fuel + 1) (s.take N) = some r := by
      cases fuel with
      | zero => exact ⟨0, call_zero h⟩
      | succ fuel => exact ⟨fuel, h⟩
    rw [call_eq fuel (houts N)] at h
    obtain ⟨r', hsample, -⟩ := Option.map_eq_some_iff.mp h
    exact ⟨fuel + 1, N, r', hsample⟩
  · rintro ⟨fuel | fuel, N, r, h⟩
    · exact absurd h (by simp [sample])
    · exact ⟨fuel + 1, N, _, by rw [call_eq fuel (houts N), h]; rfl⟩

/-! ## 5. Tuples -/

/-- **The tuples that lead to a value** are those that give its number. -/
theorem tuples_eq {u : ℕ} (hu : u < D.count) :
    D.tuples E (D.result u) = List.map (· + E.min) '' Draw.tuples (D.draws E) u := by
  have hinj := D.result_bijective.injOn
  ext outs
  rw [Set.mem_image]
  constructor
  · rintro ⟨hlength, hrange, hcall⟩
    rw [call_eq 0 fun out hout => (hrange out hout).2] at hcall
    obtain ⟨⟨us, rest⟩, hsample, heq⟩ := Option.map_eq_some_iff.mp hcall
    obtain ⟨hvalue, rfl⟩ := Prod.mk.injEq _ _ _ _ ▸ heq
    have hok := of_decide_eq_true (sample_ok hsample)
    rw [sample] at hsample
    obtain ⟨r, haccept, hr⟩ := Option.bind_eq_some_iff.mp hsample
    split at hr
    swap
    · exact absurd hr (by simp [sample])
    obtain rfl := Option.some.inj hr
    obtain ⟨rfl, hall⟩ := (acceptEach_eq_some_iff (by rw [hlength, List.length_map])).mp haccept
    refine ⟨us.map (· - E.min), ⟨?_, hinj hok hu hvalue⟩, ?_⟩
    · rw [List.forall₂_map_left_iff] at hall
      rw [List.forall₂_map_right_iff]
      exact hall.imp fun d u h => of_decide_eq_true h
    · rw [List.map_map]
      exact (List.map_congr_left fun out hout => Nat.sub_add_cancel (hrange out hout).1).trans (List.map_id us)
  · rintro ⟨us, ⟨hall, rfl⟩, rfl⟩
    have hback : (us.map (· + E.min)).map (· - E.min) = us := by
      rw [List.map_map]
      exact (List.map_congr_left fun u _ => Nat.add_sub_cancel u E.min).trans (List.map_id us)
    have hlength : (us.map (· + E.min)).length = (D.draws E).length := by
      rw [List.length_map, hall.length_eq]
    have hrange : ∀ out ∈ us.map (· + E.min), E.min ≤ out ∧ out ≤ E.max := by
      intro out hout
      obtain ⟨u, hmem, rfl⟩ := List.mem_map.mp hout
      obtain ⟨d, hd, hlt⟩ := Draw.exists_draw hall u hmem
      have hbound := ((D.draws_spec E).1 d hd).2.2
      have hcount : E.count = E.max - E.min + 1 := rfl
      have hmin := E.min_lt
      omega
    refine ⟨hlength, hrange, ?_⟩
    have haccept : acceptEach ((D.draws E).map E.test) (us.map (· + E.min)) = some (us.map (· + E.min), []) := by
      refine (acceptEach_eq_some_iff (by rw [hlength, List.length_map])).mpr ⟨rfl, ?_⟩
      rw [List.forall₂_map_left_iff, List.forall₂_map_right_iff]
      refine hall.imp fun d u h => decide_eq_true ?_
      rwa [Nat.add_sub_cancel]
    have haccepts : D.accepts E (us.map (· + E.min)) = true := by
      rw [accepts, hback]
      exact decide_eq_true hu
    rw [call_eq 0 fun out hout => (hrange out hout).2, sample, haccept, Option.bind_some, if_pos haccepts]
    simp only [Option.map_some, taken, hback]

/-- **`uniform_int_distribution` is exact**: its values are those that are wanted, each threshold is positive, a stream
of outputs gives a value if it is not rejected for ever, and all values come from the same number of tuples. -/
theorem uniformInt_exact (D : UniformInt m) (E : EngineRange) :
    (∀ fuel outs v rest, (∀ out ∈ outs, E.min ≤ out ∧ out ≤ E.max) → D.call E fuel outs = some (v, rest) →
        D.a ≤ v ∧ v ≤ D.b) ∧
      (∀ d ∈ D.draws E, 0 < d.bound) ∧
      (∀ s : Stream' ℕ, (∀ i, E.min ≤ s.get i ∧ s.get i ≤ E.max) →
        ((∃ fuel N r, D.call E fuel (s.take N) = some r) ↔ ¬ D.Rejected E s)) ∧
      ∃ c, 0 < c ∧ ∀ v, D.a ≤ v → v ≤ D.b → (D.tuples E v).ncard = c := by
  obtain ⟨hdraws, hbits⟩ := D.draws_spec E
  refine ⟨fun fuel outs v rest houts h => call_mem (fun out hout => (houts out hout).2) h,
    fun d hd => (hdraws d hd).2.1, fun s hs => exists_call_iff fun i => (hs i).2,
    ((D.draws E).map fun d => d.bound / 2 ^ d.bits).prod, ?_, fun v ha hb => ?_⟩
  · refine List.prod_pos fun q hq => ?_
    obtain ⟨d, hd, rfl⟩ := List.mem_map.mp hq
    exact Nat.div_pos (Nat.le_of_dvd (hdraws d hd).2.1 (hdraws d hd).1) (Nat.two_pow_pos _)
  · obtain ⟨u, hu, rfl⟩ := D.result_bijective.surjOn ⟨ha, hb⟩
    have hinj : Function.Injective (List.map (· + E.min)) :=
      List.map_injective_iff.mpr (add_left_injective E.min)
    rw [tuples_eq hu, Set.ncard_image_of_injective _ hinj,
      Draw.ncard_tuples (fun d hd => (hdraws d hd).1) (lt_of_lt_of_le hu hbits)]

/-- A die. -/
def die : UniformInt .lp64 where
  T := ⟨.int, true⟩
  a := 1
  b := 6
  has_a := by decide
  has_b := by decide
  le := by decide

/-- An engine with three outputs. -/
def threeOutputs : EngineRange where
  size := 8
  digits := 8
  min := 1
  max := 3
  supported := by decide
  min_lt := by decide
  max_lt := by decide

theorem uniformInt_exact_die :
    ((1 : ℤ) ≤ 3 ∧ (3 : ℤ) ≤ 6) ∧
      ((∃ fuel N r, die.call threeOutputs fuel ((Stream'.const 1).take N) = some r) ↔
        ¬ die.Rejected threeOutputs (Stream'.const 1)) ∧
      ∃ c, 0 < c ∧ ∀ v, 1 ≤ v → v ≤ 6 → (die.tuples threeOutputs v).ncard = c :=
  ⟨(uniformInt_exact die threeOutputs).1 1 [3, 1, 2, 1] 3 [] (by decide) (by decide),
    (uniformInt_exact die threeOutputs).2.2.1 (Stream'.const 1) fun _ => (by decide : 1 ≤ 1 ∧ 1 ≤ 3),
    (uniformInt_exact die threeOutputs).2.2.2⟩

end UniformInt

end Cccl.Random
