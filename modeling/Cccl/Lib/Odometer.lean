/-
# Odometers

An odometer has a row of wheels.  The first wheel goes on to its next value; where it has none, it starts over, and the
wheels after it advance in the same way.

If each wheel runs through so many values before it starts over, then the odometer counts: after `i` steps it shows the
values that belong to the digits of `i` in mixed radix (`iterate_eq_digits`).  A wheel that does not start over in time
does no harm if the wheels after it have one value only.

Otherwise, a wheel that always goes on freezes the ones after it (`advance_frozen`).  And if wheels only start over after
their last value, then no step can skip a number (`rank_advance_le`).
-/
import Cccl.Lib.MixedRadix

namespace Cccl.Odometer

open MixedRadix

variable {δ σ : Type*} (first : δ → σ) (next : δ → σ → Option σ)

/-! ## 1. Steps -/

/-- One step of the wheels `ds`, which show the values `vs`. -/
def advance : List δ → List σ → List σ
  | d :: ds, v :: vs =>
    match next d v with
    | some v' => v' :: vs
    | none => first d :: advance ds vs
  | _, _ => []

variable {first next}

theorem advance_cons_some {d : δ} {v v' : σ} (h : next d v = some v') (ds : List δ) (vs : List σ) :
    advance first next (d :: ds) (v :: vs) = v' :: vs := by simp only [advance, h]

theorem advance_cons_none {d : δ} {v : σ} (h : next d v = none) (ds : List δ) (vs : List σ) :
    advance first next (d :: ds) (v :: vs) = first d :: advance first next ds vs := by simp only [advance, h]

theorem advance_map {ε : Type*} (f : ε → δ) : ∀ (es : List ε) (vs : List σ),
    advance first next (es.map f) vs = advance (fun e => first (f e)) (fun e => next (f e)) es vs
  | [], _ => rfl
  | _ :: _, [] => rfl
  | e :: es, v :: vs => by
    rw [List.map_cons]
    cases h : next (f e) v with
    | some v' =>
      rw [advance_cons_some h, @advance_cons_some _ _ _ (fun e => next (f e)) _ _ _ h]
    | none =>
      rw [advance_cons_none h, @advance_cons_none _ _ _ (fun e => next (f e)) _ _ h, advance_map f es vs]

/-- **What a step preserves**, given what is known of the values that it leads to. -/
theorem forall₂_advance {P Q : δ → σ → Prop} (hnext : ∀ d v v', P d v → next d v = some v' → Q d v' → P d v') :
    ∀ {ds : List δ} {vs : List σ}, (∀ d ∈ ds, P d (first d)) → List.Forall₂ P ds vs →
      List.Forall₂ Q ds (advance first next ds vs) → List.Forall₂ P ds (advance first next ds vs)
  | [], [], _, _, _ => .nil
  | d :: ds, v :: vs, hfirst, .cons hd hds, hq => by
    cases hv : next d v with
    | some v' =>
      rw [advance_cons_some hv] at hq ⊢
      exact .cons (hnext d v v' hd hv (List.forall₂_cons.mp hq).1) hds
    | none =>
      rw [advance_cons_none hv] at hq ⊢
      exact .cons (hfirst d List.mem_cons_self) (forall₂_advance hnext
        (fun e he => hfirst e (List.mem_cons_of_mem _ he)) hds (List.forall₂_cons.mp hq).2)

/-- **A wheel that goes on freezes those after it.** -/
theorem advance_frozen {d : δ} {v v' : σ} (h : next d v = some v') (after : List δ) (ws : List σ) :
    ∀ {before : List δ} {vs : List σ}, vs.length = before.length →
      ∃ vs' v'', vs'.length = before.length ∧
        advance first next (before ++ d :: after) (vs ++ v :: ws) = vs' ++ v'' :: ws
  | [], [], _ => ⟨[], v', rfl, advance_cons_some h after ws⟩
  | [], _ :: _, hl => absurd hl (Nat.succ_ne_zero _)
  | _ :: _, [], hl => absurd hl.symm (Nat.succ_ne_zero _)
  | b :: before, u :: vs, hl => by
    have hlength : vs.length = before.length := Nat.succ.inj hl
    cases hu : next b u with
    | some u' => exact ⟨u' :: vs, v, by rw [List.length_cons, List.length_cons, hlength], advance_cons_some hu _ _⟩
    | none =>
      obtain ⟨vs', v'', hlength', hstep⟩ := advance_frozen h after ws hlength
      refine ⟨first b :: vs', v'', by rw [List.length_cons, List.length_cons, hlength'], ?_⟩
      rw [List.cons_append, List.cons_append, advance_cons_none hu, hstep, List.cons_append]

/-! ## 2. Counting -/

section

variable (value : δ → ℕ → σ) (count : δ → ℕ)

/-- The values that belong to digits. -/
def shown : List δ → List ℕ → List σ := List.zipWith value

/-- Each wheel runs through its values and then starts over, or the wheels after it have one value only. -/
def Counts (first : δ → σ) (next : δ → σ → Option σ) : List δ → Prop
  | [] => True
  | d :: ds => (0 < count d ∧ value d 0 = first d ∧
      (∀ k, k + 1 < count d → next d (value d k) = some (value d (k + 1))) ∧
        (next d (value d (count d - 1)) = none ∨ ∀ e ∈ ds, count e = 1)) ∧ Counts first next ds

variable {value count}

/-- **One step adds one.** -/
theorem advance_digits : ∀ {ds : List δ}, Counts value count first next ds → ∀ {i : ℕ}, i + 1 < (ds.map count).prod →
    advance first next ds (shown value ds (digits (ds.map count) i)) = shown value ds (digits (ds.map count) (i + 1))
  | [], _, i, hi => by
    rw [List.map_nil, List.prod_nil] at hi
    omega
  | d :: ds, ⟨⟨hpos, hzero, hstep, hlast⟩, hds⟩, i, hi => by
    rw [List.map_cons, List.prod_cons] at hi
    rw [List.map_cons, digits, digits]
    change advance first next (d :: ds) (value d (i % count d) :: shown value ds (digits _ (i / count d))) =
      value d ((i + 1) % count d) :: shown value ds (digits _ ((i + 1) / count d))
    have hdiv := Nat.div_add_mod i (count d)
    have hmod := Nat.mod_lt i hpos
    by_cases hcarry : i % count d + 1 < count d
    · have hmod' : (i + 1) % count d = i % count d + 1 := by
        rw [Nat.add_mod, Nat.mod_eq_of_lt (show 1 < count d by omega), Nat.mod_eq_of_lt hcarry]
      have hdiv' : (i + 1) / count d = i / count d := by
        rw [Nat.div_eq_iff hpos]
        rw [Nat.mul_comm] at hdiv
        omega
      rw [advance_cons_some (hstep _ hcarry), hmod', hdiv']
    · have hmax : i % count d = count d - 1 := by omega
      have hsum : i + 1 = count d * (i / count d + 1) := by
        rw [Nat.mul_add, Nat.mul_one]
        omega
      have hmod' : (i + 1) % count d = 0 := by rw [hsum, Nat.mul_mod_right]
      have hdiv' : (i + 1) / count d = i / count d + 1 := by rw [hsum, Nat.mul_div_cancel_left _ hpos]
      have hrest : i / count d + 1 < (ds.map count).prod := by
        rw [hsum] at hi
        exact Nat.lt_of_mul_lt_mul_left hi
      have hnone : next d (value d (count d - 1)) = none := by
        refine hlast.resolve_right fun hones => ?_
        have hprod : (ds.map count).prod = 1 := List.prod_eq_one fun t ht => by
          obtain ⟨e, he, rfl⟩ := List.mem_map.mp ht
          exact hones e he
        rw [hprod, Nat.mul_one] at hi
        rw [Nat.mod_eq_of_lt (Nat.lt_of_succ_lt hi)] at hcarry
        exact hcarry hi
      rw [hmax, advance_cons_none hnone, advance_digits hds hrest, hmod', hdiv', hzero]

theorem shown_zero : ∀ {ds : List δ}, Counts value count first next ds →
    shown value ds (digits (ds.map count) 0) = ds.map first
  | [], _ => rfl
  | d :: ds, ⟨⟨_, hzero, _, _⟩, hds⟩ => by
    rw [List.map_cons, digits, Nat.zero_mod, Nat.zero_div, List.map_cons, ← hzero, ← shown_zero hds]
    rfl

/-- **After so many steps, an odometer shows the digits of their number.** -/
theorem iterate_eq_digits {ds : List δ} (h : Counts value count first next ds) {i : ℕ}
    (hi : i < (ds.map count).prod) :
    (advance first next ds)^[i] (ds.map first) = shown value ds (digits (ds.map count) i) := by
  induction i with
  | zero => exact (shown_zero h).symm
  | succ i ih => rw [Function.iterate_succ_apply', ih (Nat.lt_of_succ_lt hi), advance_digits h hi]

end

/-! ## 3. Ranks -/

section

variable (count : δ → ℕ) (digit : δ → σ → ℕ)

/-- The number with the digits that the values stand for. -/
def rank (ds : List δ) (vs : List σ) : ℕ := ofDigits (ds.map count) (List.zipWith digit ds vs)

variable {count digit} {P : δ → σ → Prop}

theorem rank_first (hfirst : ∀ d, digit d (first d) = 0) (ds : List δ) :
    rank count digit ds (ds.map first) = 0 := by
  induction ds with
  | nil => rfl
  | cons d ds ih =>
    change digit d (first d) + count d * rank count digit ds (ds.map first) = 0
    rw [hfirst, ih, Nat.mul_zero]

/-- **No step skips a number** if wheels only start over after their last digit. -/
theorem rank_advance_le (hfirst : ∀ d, digit d (first d) = 0)
    (hnext : ∀ d v v', P d v → next d v = some v' → digit d v' ≤ digit d v + 1)
    (hlast : ∀ d v, P d v → next d v = none → count d ≤ digit d v + 1) :
    ∀ {ds : List δ} {vs : List σ}, List.Forall₂ P ds vs →
      rank count digit ds (advance first next ds vs) ≤ rank count digit ds vs + 1
  | [], [], _ => Nat.zero_le _
  | d :: ds, v :: vs, .cons hd hds => by
    have hcons : ∀ u us, rank count digit (d :: ds) (u :: us) = digit d u + count d * rank count digit ds us :=
      fun _ _ => rfl
    cases hv : next d v with
    | some v' =>
      rw [advance_cons_some hv, hcons, hcons]
      have := hnext d v v' hd hv
      omega
    | none =>
      have hle := Nat.mul_le_mul_left (count d) (rank_advance_le hfirst hnext hlast hds)
      have hdigit := hlast d v hd hv
      rw [advance_cons_none hv, hcons, hcons, hfirst]
      rw [Nat.mul_add, Nat.mul_one] at hle
      omega

end

end Cccl.Odometer
