/-
# Jumps of `linear_congruential_engine`

`discard` takes the steps one by one where a product can be too large for the type of the engine.  Else it
squares and multiplies affine maps in 64 bits, with a remainder after each product.

The guard is about one step only.  A remainder may be as large as the modulus allows, so products of two of
them may leave 64 bits; and where `m = 0` stands for the range of the type the remainder is a division by
zero.  The jumps are right if and only if `m` is not zero and no product of the remainders of powers is cut to
another residue (`Harmless`, `discardSteps_iff`).  This is so for all moduli up to `2 ^ 32` and for powers of
two.
-/
import Cccl.Lib.SquareMultiply
import Cccl.Random.LinearCongruential

namespace Cccl.Random

open SquareMultiply LceAlgPicker

/-! ## 1. `discard` -/

/-- `__acc_mult` and `__acc_plus`, or `__cur_mult` and `__cur_plus`. -/
structure LceMap where
  mult : ℕ
  plus : ℕ
  deriving DecidableEq

namespace LinearCongruentialEngine

variable (E : LinearCongruentialEngine)

/-- `__can_overflow`, with the range of the result type. -/
def canOverflow : Bool := mightOverflow E.a E.c E.m (2 ^ E.bits - 1)

/-- `% modulus` of a `uint64_t`. -/
def reduce (v : ℕ) : ℕ := v % 2 ^ 64 % E.m

/-- What a digit of `__z` does to the result. -/
def join (acc cur : LceMap) : LceMap :=
  ⟨E.reduce (acc.mult * cur.mult),
    if E.c ≠ 0 then E.reduce (acc.plus * cur.mult + cur.plus) else acc.plus⟩

/-- The map for the next digit. -/
def double (cur : LceMap) : LceMap :=
  ⟨E.reduce (cur.mult * cur.mult),
    if E.c ≠ 0 then E.reduce ((cur.mult + 1) * cur.plus) else cur.plus⟩

/-- The map of a jump. -/
def jump (z : ℕ) : LceMap := powerLoop E.join E.double ⟨1, 0⟩ ⟨E.a, E.c⟩ z

/-- `discard`.  There is no state behind a division by zero. -/
def discard (z x : ℕ) : Option ℕ :=
  if E.canOverflow then some (E.next^[z] x)
  else if E.m = 0 then none
  else some (E.reduce ((E.jump z).mult * x + (E.jump z).plus) % 2 ^ E.bits)

/-- **`discard` is repeated stepping**, and jumps add up. -/
structure DiscardSteps : Prop where
  discard_eq : ∀ z < 2 ^ 64, ∀ x < E.modulus, E.discard z x = some (E.next^[z] x)
  discard_add : ∀ a b x, a + b < 2 ^ 64 → x < E.modulus →
    (E.discard a x).bind (E.discard b) = E.discard (a + b) x

/-! ## 2. Powers of a step -/

/-- The factor of so many steps. -/
def factor (n : ℕ) : ℕ := E.a ^ n % E.m

/-- The sum of powers that belongs to the factor. -/
def geometric (a : ℕ) : ℕ → ℕ
  | 0 => 0
  | n + 1 => geometric a n * a + 1

/-- The summand of so many steps. -/
def summand (n : ℕ) : ℕ := E.c * geometric E.a n % E.m

/-- The residue of a number is not changed by cutting it to 64 bits. -/
def Kept (v : ℕ) : Prop := E.reduce v = v % E.m

/-- **No product of remainders is cut to another residue**, in a jump of any length from any state. -/
structure Harmless : Prop where
  factor_factor : ∀ r i, r < 2 ^ i → r + 2 ^ i < 2 ^ 64 → E.Kept (E.factor r * E.factor (2 ^ i))
  factor_square : ∀ i, 2 ^ (i + 1) < 2 ^ 64 → E.Kept (E.factor (2 ^ i) * E.factor (2 ^ i))
  summand_factor : E.c ≠ 0 → ∀ r i, r < 2 ^ i → r + 2 ^ i < 2 ^ 64 →
    E.Kept (E.summand r * E.factor (2 ^ i) + E.summand (2 ^ i))
  summand_double : E.c ≠ 0 → ∀ i, 2 ^ (i + 1) < 2 ^ 64 →
    E.Kept ((E.factor (2 ^ i) + 1) * E.summand (2 ^ i))
  factor_state : ∀ z < 2 ^ 64, ∀ x < E.m, E.Kept (E.factor z * x + E.summand z)

variable {E}

theorem geometric_add (a r : ℕ) : ∀ s, geometric a (r + s) = geometric a r * a ^ s + geometric a s
  | 0 => by rw [Nat.add_zero, Nat.pow_zero, Nat.mul_one, geometric, Nat.add_zero]
  | s + 1 => by
    rw [← Nat.add_assoc, geometric, geometric_add a r s, geometric]
    ring

theorem factor_add (r s : ℕ) : E.factor r * E.factor s % E.m = E.factor (r + s) := by
  rw [factor, factor, factor, ← Nat.mul_mod, Nat.pow_add]

theorem summand_add (r s : ℕ) :
    (E.summand r * E.factor s + E.summand s) % E.m = E.summand (r + s) := by
  have hmul : E.summand r * E.factor s ≡ E.c * geometric E.a r * E.a ^ s [MOD E.m] :=
    (Nat.mod_modEq _ _).mul (Nat.mod_modEq _ _)
  have hsum : E.c * geometric E.a r * E.a ^ s + E.c * geometric E.a s = E.c * geometric E.a (r + s) := by
    rw [geometric_add]
    ring
  have hall := hmul.add (Nat.mod_modEq (E.c * geometric E.a s) E.m)
  rwa [hsum] at hall

theorem summand_add_self (s : ℕ) :
    (E.factor s + 1) * E.summand s % E.m = E.summand (s + s) := by
  rw [← summand_add, Nat.succ_mul, Nat.mul_comm]

variable (hm : E.m ≠ 0)
include hm

theorem factor_lt (n : ℕ) : E.factor n < E.m := Nat.mod_lt _ (Nat.pos_of_ne_zero hm)

theorem summand_lt (n : ℕ) : E.summand n < E.m := Nat.mod_lt _ (Nat.pos_of_ne_zero hm)

theorem reduce_lt (v : ℕ) : E.reduce v < E.m := Nat.mod_lt _ (Nat.pos_of_ne_zero hm)

theorem reduce_of_lt {v : ℕ} (hv : v < E.m) : E.reduce v = v := by
  have hm' := E.m_lt
  obtain ⟨hword, hword64⟩ := E.lt_word
  rw [reduce, Nat.mod_eq_of_lt (by omega : v < 2 ^ 64), Nat.mod_eq_of_lt hv]

theorem powers_zero_one : (⟨1, 0⟩ : LceMap) = ⟨E.factor 0, E.summand 0⟩ ∧
    (⟨E.a, E.c⟩ : LceMap) = ⟨E.factor 1, E.summand 1⟩ := by
  have htwo := E.two_le_m hm
  have ha := E.a_lt_m.resolve_left hm
  have hc := E.c_lt_m.resolve_left hm
  simp only [factor, summand, geometric, Nat.pow_zero, Nat.pow_one, Nat.mul_zero, Nat.zero_mul,
    Nat.zero_add, Nat.mul_one, Nat.zero_mod]
  rw [Nat.mod_eq_of_lt (by omega : 1 < E.m), Nat.mod_eq_of_lt ha, Nat.mod_eq_of_lt hc]
  exact ⟨rfl, rfl⟩

/-! ## 3. Harmless products -/

/-- **If no product is cut to another residue**, the map of a jump is the power. -/
theorem Harmless.jump_eq (h : E.Harmless) {z : ℕ} (hz : z < 2 ^ 64) :
    E.jump z = ⟨E.factor z, E.summand z⟩ := by
  obtain ⟨hzero, hone⟩ := powers_zero_one hm
  have hnone : E.c = 0 → ∀ n, E.summand n = 0 := fun hc n => by
    rw [summand, hc, Nat.zero_mul, Nat.zero_mod]
  refine @powerLoop_spec LceMap E.join E.double (fun n f => f = ⟨E.factor n, E.summand n⟩) z _ _ hzero hone
    ?_ ?_
  · rintro i _ _ hdigit rfl rfl
    have hle := Nat.mod_le z (2 ^ (i + 1))
    rw [mod_two_pow_succ, if_pos hdigit] at hle
    have hr := Nat.mod_lt z (Nat.two_pow_pos i)
    have hmult := h.factor_factor _ i hr (hle.trans_lt hz)
    simp only [join, LceMap.mk.injEq]
    refine ⟨hmult.trans (factor_add _ _), ?_⟩
    split
    · rename_i hc
      exact (h.summand_factor hc _ i hr (hle.trans_lt hz)).trans (summand_add _ _)
    · rename_i hc
      rw [hnone (not_not.mp hc), hnone (not_not.mp hc)]
  · rintro i _ hle rfl
    have hsum : 2 ^ i + 2 ^ i = 2 ^ (i + 1) := by rw [Nat.pow_succ, Nat.mul_two]
    simp only [double, LceMap.mk.injEq]
    refine ⟨(h.factor_square i (hle.trans_lt hz)).trans ?_, ?_⟩
    · rw [factor_add, hsum]
    · split
      · rename_i hc
        refine (h.summand_double hc i (hle.trans_lt hz)).trans ?_
        rw [summand_add_self, hsum]
      · rename_i hc
        rw [hnone (not_not.mp hc), hnone (not_not.mp hc)]

theorem jump_lt (z : ℕ) : (E.jump z).mult < E.m ∧ (E.jump z).plus < E.m := by
  have htwo := E.two_le_m hm
  refine @powerLoop_spec LceMap E.join E.double (fun _ f => f.mult < E.m ∧ f.plus < E.m) z _ _
    ⟨(by omega : 1 < E.m), (by omega : 0 < E.m)⟩ ⟨E.a_lt_m.resolve_left hm, E.c_lt_m.resolve_left hm⟩ ?_ ?_
  · intro _ _ _ _ hacc _
    refine ⟨reduce_lt hm _, ?_⟩
    dsimp only [join]
    split
    · exact reduce_lt hm _
    · exact hacc.2
  · intro _ _ _ hcur
    refine ⟨reduce_lt hm _, ?_⟩
    dsimp only [double]
    split
    · exact reduce_lt hm _
    · exact hcur.2

theorem jump_mult_of_le_one (ha : E.a ≤ 1) (z : ℕ) : (E.jump z).mult = E.factor z := by
  obtain ⟨hzero, hone⟩ := powers_zero_one hm
  have hle : ∀ n, E.factor n ≤ 1 := fun n => by
    have hpow := Nat.pow_le_pow_left ha n
    rw [Nat.one_pow] at hpow
    exact (Nat.mod_le _ _).trans hpow
  have hproduct : ∀ r s, E.reduce (E.factor r * E.factor s) = E.factor (r + s) := fun r s => by
    have hmul := Nat.mul_le_mul (hle r) (hle s)
    rw [← factor_add, reduce, Nat.mod_eq_of_lt (by omega : E.factor r * E.factor s < 2 ^ 64)]
  refine @powerLoop_spec LceMap E.join E.double (fun n f => f.mult = E.factor n) z _ _
    (congrArg LceMap.mult hzero) (congrArg LceMap.mult hone) ?_ ?_
  · intro i acc cur _ hacc hcur
    dsimp only [join]
    rw [hacc, hcur, hproduct]
  · intro i cur _ hcur
    dsimp only [double]
    rw [hcur, hproduct, Nat.pow_succ, Nat.mul_two]

omit hm in
/-- The map of a digit. -/
def digitMap (E : LinearCongruentialEngine) (i : ℕ) : LceMap := E.double^[i] ⟨E.a, E.c⟩

omit hm in
theorem digitMap_succ (i : ℕ) : E.digitMap (i + 1) = E.double (E.digitMap i) :=
  Function.iterate_succ_apply' _ _ _

omit hm in
theorem jump_add_two_pow {r i : ℕ} (hr : r < 2 ^ i) :
    E.jump (r + 2 ^ i) = E.join (E.jump r) (E.digitMap i) := powerLoop_add_two_pow hr _ _

theorem digitMap_lt (i : ℕ) : (E.digitMap i).mult < E.m ∧ (E.digitMap i).plus < E.m ∧
    (E.c = 0 → (E.digitMap i).plus = 0) := by
  induction i with
  | zero => exact ⟨E.a_lt_m.resolve_left hm, E.c_lt_m.resolve_left hm, fun h => h⟩
  | succ i ih =>
    rw [digitMap_succ]
    refine ⟨reduce_lt hm _, ?_⟩
    dsimp only [double]
    split
    · rename_i hc
      exact ⟨reduce_lt hm _, fun h => absurd h hc⟩
    · exact ih.2

theorem jump_two_pow (i : ℕ) : E.jump (2 ^ i) = E.digitMap i := by
  obtain ⟨hmult, hplus, hnone⟩ := digitMap_lt hm i
  have hzero : E.jump 0 = ⟨1, 0⟩ := powerLoop_zero _ _
  have hjump := @jump_add_two_pow E 0 i (Nat.two_pow_pos i)
  rw [Nat.zero_add, hzero, join, Nat.one_mul, Nat.zero_mul, Nat.zero_add, reduce_of_lt hm hmult,
    reduce_of_lt hm hplus] at hjump
  rw [hjump]
  split
  · rfl
  · rename_i hc
    rw [← hnone (not_not.mp hc)]

/-! ## 4. Steps and jumps -/

variable (hguard : E.canOverflow = false)
include hguard

theorem step_lt : E.a * (E.m - 1) + E.c < 2 ^ E.bits := by
  by_contra hge
  have hover := (mightOverflow_iff hm E.c_lt).mpr (Nat.not_lt.mp hge)
  rw [canOverflow, hover] at hguard
  exact Bool.true_eq_false.mp hguard

theorem next_eq {x : ℕ} (hx : x < E.m) : E.next x = (E.a * x + E.c) % E.m := by
  have hstep := step_lt hm hguard
  obtain ⟨hword, -⟩ := E.lt_word
  exact E.next_of_lt hm hx (by omega)

/-- **So many steps are an affine map.** -/
theorem iterate_next {x : ℕ} (hx : x < E.m) :
    ∀ n, E.next^[n] x = (E.factor n * x + E.summand n) % E.m
  | 0 => by
    obtain ⟨hzero, -⟩ := powers_zero_one hm
    obtain ⟨hfactor, hsummand⟩ := LceMap.mk.injEq .. |>.mp hzero
    rw [← hfactor, ← hsummand, Nat.one_mul, Nat.add_zero, Nat.mod_eq_of_lt hx]
    rfl
  | n + 1 => by
    have hlt : (E.factor n * x + E.summand n) % E.m < E.m := Nat.mod_lt _ (Nat.pos_of_ne_zero hm)
    obtain ⟨-, hone⟩ := powers_zero_one hm
    obtain ⟨hfactor, hsummand⟩ := LceMap.mk.injEq .. |>.mp hone
    have hinner : E.a * ((E.factor n * x + E.summand n) % E.m) + E.c ≡
        E.factor n * E.a * x + (E.summand n * E.a + E.c) [MOD E.m] := by
      have hmod := ((Nat.mod_modEq (E.factor n * x + E.summand n) E.m).mul_left E.a).add_right E.c
      have hsum : E.a * (E.factor n * x + E.summand n) + E.c =
          E.factor n * E.a * x + (E.summand n * E.a + E.c) := by ring
      rwa [hsum] at hmod
    have houter : E.factor n * E.a * x + (E.summand n * E.a + E.c) ≡
        E.factor (n + 1) * x + E.summand (n + 1) [MOD E.m] := by
      rw [← factor_add, ← summand_add, ← hfactor, ← hsummand]
      exact ((Nat.mod_modEq _ _).symm.mul_right x).add (Nat.mod_modEq _ _).symm
    rw [Function.iterate_succ_apply', iterate_next hx n, next_eq hm hguard hlt]
    exact hinner.trans houter

theorem discard_fast (z x : ℕ) :
    E.discard z x = some (E.reduce ((E.jump z).mult * x + (E.jump z).plus)) := by
  have hlt := (reduce_lt hm ((E.jump z).mult * x + (E.jump z).plus)).trans E.m_lt
  rw [discard, hguard, if_neg Bool.false_ne_true, if_neg hm, Nat.mod_eq_of_lt hlt]

theorem Harmless.discard_eq (h : E.Harmless) {z x : ℕ} (hz : z < 2 ^ 64) (hx : x < E.m) :
    E.discard z x = some (E.next^[z] x) := by
  rw [discard_fast hm hguard, h.jump_eq hm hz, iterate_next hm hguard hx]
  exact congrArg some (h.factor_state z hz x hx)

/-- **A jump that is as many steps has the map of the steps.** -/
theorem jump_eq_of_steps {z : ℕ}
    (h : ∀ x < E.m, E.discard z x = some (E.next^[z] x)) : E.jump z = ⟨E.factor z, E.summand z⟩ := by
  have htwo := E.two_le_m hm
  obtain ⟨hmult, hplus⟩ := jump_lt hm z
  have hat : ∀ x < E.m, E.reduce ((E.jump z).mult * x + (E.jump z).plus) =
      (E.factor z * x + E.summand z) % E.m := by
    intro x hx
    have hx' := h x hx
    rw [discard_fast hm hguard, iterate_next hm hguard hx] at hx'
    exact Option.some.inj hx'
  -- the state zero shows the summand, and the state one the factor
  have hsummand : (E.jump z).plus = E.summand z := by
    have h0 := hat 0 (by omega)
    rwa [Nat.mul_zero, Nat.mul_zero, Nat.zero_add, Nat.zero_add, reduce_of_lt hm hplus,
      Nat.mod_eq_of_lt (summand_lt hm z)] at h0
  have hfactor : (E.jump z).mult = E.factor z := by
    by_cases ha : E.a ≤ 1
    · exact jump_mult_of_le_one hm ha z
    · have hstep := step_lt hm hguard
      have htwice : 2 * (E.m - 1) ≤ E.a * (E.m - 1) := Nat.mul_le_mul_right _ (by omega)
      obtain ⟨hword, hword64⟩ := E.lt_word
      have h1 := hat 1 (by omega)
      have hcut : ((E.jump z).mult + (E.jump z).plus) % 2 ^ 64 = (E.jump z).mult + (E.jump z).plus :=
        Nat.mod_eq_of_lt (by omega)
      rw [Nat.mul_one, Nat.mul_one, reduce, hcut, hsummand] at h1
      have hmod : (E.jump z).mult ≡ E.factor z [MOD E.m] := Nat.ModEq.add_right_cancel' _ h1
      exact hmod.eq_of_lt_of_lt hmult (factor_lt hm z)
  rw [← hfactor, ← hsummand]

/-- **Jumps that are always right have harmless products.** -/
theorem harmless_of_steps (h : ∀ z < 2 ^ 64, ∀ x < E.m, E.discard z x = some (E.next^[z] x)) :
    E.Harmless := by
  have hjump : ∀ z < 2 ^ 64, E.jump z = ⟨E.factor z, E.summand z⟩ := fun z hz =>
    jump_eq_of_steps hm hguard (h z hz)
  have hdigit : ∀ i, 2 ^ i < 2 ^ 64 → E.digitMap i = ⟨E.factor (2 ^ i), E.summand (2 ^ i)⟩ := fun i hi => by
    rw [← jump_two_pow hm, hjump _ hi]
  have hdouble : ∀ i, 2 ^ (i + 1) < 2 ^ 64 → (⟨E.factor (2 ^ (i + 1)), E.summand (2 ^ (i + 1))⟩ : LceMap) =
      E.double ⟨E.factor (2 ^ i), E.summand (2 ^ i)⟩ := fun i hi => by
    have hle : 2 ^ i ≤ 2 ^ (i + 1) := Nat.pow_le_pow_right (by decide) (Nat.le_succ i)
    rw [← hdigit (i + 1) hi, digitMap_succ, hdigit i (hle.trans_lt hi)]
  have hjoin : ∀ r i, r < 2 ^ i → r + 2 ^ i < 2 ^ 64 →
      (⟨E.factor (r + 2 ^ i), E.summand (r + 2 ^ i)⟩ : LceMap) =
        E.join ⟨E.factor r, E.summand r⟩ ⟨E.factor (2 ^ i), E.summand (2 ^ i)⟩ := fun r i hr hi => by
    rw [← hjump _ hi, jump_add_two_pow hr, hjump r (by omega), hdigit i (by omega)]
  have hsum : ∀ i, 2 ^ i + 2 ^ i = 2 ^ (i + 1) := fun i => by rw [Nat.pow_succ, Nat.mul_two]
  refine ⟨fun r i hr hi => ?_, fun i hi => ?_, fun hc r i hr hi => ?_, fun hc i hi => ?_, fun z hz x hx => ?_⟩
  · rw [Kept, factor_add]
    exact (congrArg LceMap.mult (hjoin r i hr hi)).symm
  · rw [Kept, factor_add, hsum]
    exact (congrArg LceMap.mult (hdouble i hi)).symm
  · have hplus := congrArg LceMap.plus (hjoin r i hr hi)
    simp only [join, if_pos hc] at hplus
    rw [Kept, summand_add]
    exact hplus.symm
  · have hplus := congrArg LceMap.plus (hdouble i hi)
    simp only [double, if_pos hc] at hplus
    rw [Kept, summand_add_self, hsum]
    exact hplus.symm
  · have hstate := h z hz x hx
    rw [discard_fast hm hguard, hjump z hz, iterate_next hm hguard hx] at hstate
    exact Option.some.inj hstate

omit hm hguard

/-! ## 5. When jumps are right -/

theorem modulus_pos (E : LinearCongruentialEngine) : 0 < E.modulus := by
  rw [modulus]
  split
  · exact Nat.two_pow_pos _
  · exact Nat.pos_of_ne_zero ‹_›

/-- A step stays below the modulus, even where its product is too large. -/
theorem next_lt (E : LinearCongruentialEngine) {x : ℕ} (hx : x < E.modulus) : E.next x < E.modulus := by
  by_cases hm : E.m = 0
  · rw [E.next_of_zero hm, modulus, if_pos hm]
    exact Nat.mod_lt _ (Nat.two_pow_pos _)
  · have hmod : E.modulus = E.m := if_neg hm
    obtain ⟨hword, -⟩ := E.lt_word
    rw [hmod] at hx ⊢
    have hstep : ∃ v, lceNext E.wordBits E.a E.c E.m x = v % E.m := by
      cases hschrage : useSchrage E.a E.c E.m (2 ^ E.wordBits - 1) with
      | true =>
        exact ⟨_, lceNext_schrage (E.m_lt.trans_le hword) (E.c_lt_m.resolve_left hm)
          (E.a_lt_m.resolve_left hm) hx hschrage⟩
      | false => exact ⟨_, lceNext_plain hm hschrage⟩
    obtain ⟨v, hv⟩ := hstep
    rw [E.next_of_ne_zero hm hv]
    exact Nat.mod_lt _ (Nat.pos_of_ne_zero hm)

theorem iterate_next_lt (E : LinearCongruentialEngine) {x : ℕ} (hx : x < E.modulus) :
    ∀ n, E.next^[n] x < E.modulus
  | 0 => hx
  | n + 1 => by
    rw [Function.iterate_succ_apply']
    exact E.next_lt (iterate_next_lt E hx n)

/-- **`discard` is repeated stepping** where it takes the steps one by one, or where the modulus is not zero
and no product is cut to another residue. -/
theorem discardSteps_iff (E : LinearCongruentialEngine) :
    E.DiscardSteps ↔ E.canOverflow = true ∨ E.m ≠ 0 ∧ E.Harmless := by
  have hadd : (∀ z < 2 ^ 64, ∀ x < E.modulus, E.discard z x = some (E.next^[z] x)) → E.DiscardSteps := by
    intro h
    refine ⟨h, fun a b x hab hx => ?_⟩
    rw [h a (by omega) x hx, Option.bind_some, h b (by omega) _ (E.iterate_next_lt hx a), h (a + b) hab x hx,
      Nat.add_comm, Function.iterate_add_apply]
  constructor
  · intro h
    by_contra hnot
    obtain ⟨hguard, hrest⟩ := not_or.mp hnot
    have hguard' : E.canOverflow = false := Bool.eq_false_iff.mpr hguard
    have hm : E.m ≠ 0 := by
      intro hzero
      have hnone := h.discard_eq 0 (by decide) 0 E.modulus_pos
      rw [discard, if_neg hguard, if_pos hzero] at hnone
      exact absurd hnone (by simp)
    have hmod : E.modulus = E.m := if_neg hm
    exact hrest ⟨hm, harmless_of_steps hm hguard' fun z hz x hx => h.discard_eq z hz x (hmod ▸ hx)⟩
  · rintro (hguard | ⟨hm, h⟩)
    · exact hadd fun z _ x _ => by rw [discard, if_pos hguard]
    · refine hadd fun z hz x hx => ?_
      cases hguard : E.canOverflow with
      | true => rw [discard, if_pos hguard]
      | false => exact h.discard_eq hm hguard hz (by rwa [modulus, if_neg hm] at hx)

/-- `linear_congruential_engine<uint64_t, 2, 0, 1099511627791>`. -/
def wideModulus : LinearCongruentialEngine :=
  ⟨64, 2, 0, 1099511627791, by decide, by decide, by decide, by decide, by decide, by decide, by decide⟩

/-- The square of `2 ^ 32` is cut to zero. -/
theorem not_discardSteps_wideModulus : ¬ wideModulus.DiscardSteps := by
  intro h
  have hharmless := harmless_of_steps (E := wideModulus) (by decide) (by decide) h.discard_eq
  have hsquare : (wideModulus.factor (2 ^ 5) * wideModulus.factor (2 ^ 5)) % 2 ^ 64 % wideModulus.m =
      (wideModulus.factor (2 ^ 5) * wideModulus.factor (2 ^ 5)) % wideModulus.m :=
    hharmless.factor_square 5 (by decide)
  exact absurd hsquare (by decide)

end LinearCongruentialEngine

end Cccl.Random
