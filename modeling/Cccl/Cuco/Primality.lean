/-
# The test for primes

`prime.cuh`, without the search.  Without integers of 128 bits a product is made of modular sums: each compares one
summand with what the other leaves of the modulus, so no sum in between goes beyond it (`addMod_eq`).  The loop then
keeps `r + n1 * n2` modulo `m` (`modMulLoop_eq`), and the loop of powers `r * b ^ e` (`modPowLoop_eq`).

A prime is never rejected.  The last square of a witness is one by Fermat, a square root of one modulo a prime is one or
minus one (`square_root_of_one`), and so going back from the last square there is minus one among them, or the first
number is one already (`first_or_minus_one`).

Differences and sums have no result here where they would wrap, and neither has the decomposition of zero, which does not
come to an end.  So that there is a result says that nothing wraps and that the loops end.
-/
import Mathlib.FieldTheory.Finite.Basic

namespace Cccl.Cuco

namespace Primality

/-! ## 1. The source -/

/-- A difference of two numbers of 64 bits, if it does not wrap. -/
def minus (a b : ℕ) : Option ℕ := if b ≤ a then some (a - b) else none

/-- A sum of two numbers of 64 bits, if it does not wrap. -/
def plus (a b : ℕ) : Option ℕ := if a + b < 2 ^ 64 then some (a + b) else none

/-- `(__x >= __mod_diff) ? __x - __mod_diff : __x + __n1`. -/
def addMod (modDiff x n1 : ℕ) : Option ℕ := if modDiff ≤ x then minus x modDiff else plus x n1

/-- The loop of the fallback of `__mod_mul`. -/
def modMulLoop (m r n1 n2 : ℕ) : Option ℕ :=
  if 0 < n2 then do
    let modDiff ← minus m n1
    let r ← (if n2 &&& 1 ≠ 0 then addMod modDiff r n1 else some r)
    let n1 ← addMod modDiff n1 n1
    modMulLoop m r n1 (n2 >>> 1)
  else some r
termination_by n2
decreasing_by
  rw [Nat.shiftRight_one]
  omega

/-- `__mod_mul` without integers of 128 bits. -/
def modMulFallback (n1 n2 m : ℕ) : Option ℕ := modMulLoop m 0 (n1 % m) (n2 % m)

def modMul (hasInt128 : Bool) (n1 n2 m : ℕ) : Option ℕ :=
  if hasInt128 then some (n1 * n2 % 2 ^ 128 % m % 2 ^ 64) else modMulFallback n1 n2 m

variable (hasInt128 : Bool)

/-- The loop of `__mod_pow`. -/
def modPowLoop (m r b e : ℕ) : Option ℕ :=
  if 0 < e then do
    let r ← (if e &&& 1 ≠ 0 then modMul hasInt128 r b m else some r)
    let b ← modMul hasInt128 b b m
    modPowLoop m r b (e >>> 1)
  else some r
termination_by e
decreasing_by
  rw [Nat.shiftRight_one]
  omega

def modPow (b e m : ℕ) : Option ℕ := modPowLoop hasInt128 m 1 (b % m) e

/-- The loop of `__miller_rabin_test`, with the number of squares that are left. -/
def squareLoop (n x : ℕ) : ℕ → Option Bool
  | 0 => some false
  | left + 1 => do
    let x ← modMul hasInt128 x x n
    if x = n - 1 then some true else squareLoop n x left

def millerRabinTest (n a d s : ℕ) : Option Bool := do
  let x ← modPow hasInt128 (a % n) d n
  if x = 1 ∨ x = n - 1 then some true else squareLoop hasInt128 n x (s - 1)

def smallPrimes : List ℕ := [2, 3, 5, 7, 11, 13, 17, 19, 23, 29, 31, 37]

def witnesses : List ℕ := [2, 325, 9375, 28178, 450775, 9780504, 1795265022]

/-- The decomposition into a power of two and an odd number. -/
def decompose (d s : ℕ) : Option (ℕ × ℕ) :=
  if d = 0 then none
  else if d &&& 1 = 0 then decompose (d >>> 1) (s + 1)
  else some (d, s)
termination_by d
decreasing_by
  rw [Nat.shiftRight_one]
  omega

/-- The tests by the witnesses. -/
def testWitnesses (n d s : ℕ) : List ℕ → Option Bool
  | [] => some true
  | a :: rest =>
    if a % n ≠ 0 then do
      let passed ← millerRabinTest hasInt128 n a d s
      if passed then testWitnesses n d s rest else some false
    else testWitnesses n d s rest

def isPrime (n : ℕ) : Option Bool :=
  if n < 2 then some false
  else
    match smallPrimes.find? (fun p => n % p = 0) with
    | some p => some (n = p)
    | none => do
      let (d, s) ← decompose (n - 1) 0
      testWitnesses hasInt128 n d s witnesses

/-! ## 2. Products and powers -/

variable {hasInt128} {m : ℕ}

/-- **A modular sum**: it stays below the modulus, however large that is. -/
theorem addMod_eq {x y : ℕ} (hm : m < 2 ^ 64) (hx : x < m) (hy : y < m) : addMod (m - y) x y = some ((x + y) % m) := by
  unfold addMod
  split
  · rename_i hle
    have hwrap : x + y - m < m := by omega
    rw [minus, if_pos hle, Nat.mod_eq_sub_mod (by omega), Nat.mod_eq_of_lt hwrap]
    exact congrArg some (by omega)
  · rename_i hless
    rw [plus, if_pos (by omega), Nat.mod_eq_of_lt (by omega)]

theorem and_one_ne_zero_iff (n : ℕ) : n &&& 1 ≠ 0 ↔ n % 2 = 1 := by
  rw [Nat.and_one_is_mod]
  omega

theorem modMulLoop_eq (hm : m < 2 ^ 64) (n2 : ℕ) :
    ∀ {r n1 : ℕ}, r < m → n1 < m → modMulLoop m r n1 n2 = some ((r + n1 * n2) % m) := by
  induction n2 using Nat.strong_induction_on with
  | _ n2 ih =>
    intro r n1 hr hn1
    have hpos : 0 < m := Nat.zero_lt_of_lt hr
    rw [modMulLoop]
    split
    · rename_i hn2
      have hhalf : n2 >>> 1 = n2 / 2 := Nat.shiftRight_one n2
      have hfirst : minus m n1 = some (m - n1) := if_pos hn1.le
      have hdouble : (n1 + n1) % m * (n2 / 2) % m = 2 * n1 * (n2 / 2) % m := by
        rw [Nat.mod_mul_mod, ← Nat.two_mul]
      rw [hfirst]
      change ((if n2 &&& 1 ≠ 0 then addMod (m - n1) r n1 else some r).bind fun r =>
        (addMod (m - n1) n1 n1).bind fun n1 => modMulLoop m r n1 (n2 >>> 1)) = _
      rw [addMod_eq hm hn1 hn1, hhalf, addMod_eq hm hr hn1]
      have hnext : ∀ r' < m, modMulLoop m r' ((n1 + n1) % m) (n2 / 2) = some ((r' + 2 * n1 * (n2 / 2)) % m) := by
        intro r' hr'
        rw [ih (n2 / 2) (by omega) hr' (Nat.mod_lt _ hpos), Nat.add_mod, hdouble, ← Nat.add_mod]
      split
      · rename_i hodd
        have hsplit : n2 = 2 * (n2 / 2) + 1 := by
          have := (and_one_ne_zero_iff n2).mp hodd
          omega
        change modMulLoop m ((r + n1) % m) ((n1 + n1) % m) (n2 / 2) = _
        rw [hnext _ (Nat.mod_lt _ hpos), Nat.mod_add_mod]
        conv_rhs => rw [hsplit]
        congr 2
        ring
      · rename_i heven
        have hsplit : n2 = 2 * (n2 / 2) := by
          have := mt (and_one_ne_zero_iff n2).mpr heven
          omega
        change modMulLoop m r ((n1 + n1) % m) (n2 / 2) = _
        rw [hnext r hr]
        conv_rhs => rw [hsplit]
        congr 2
        ring
    · rename_i hzero
      obtain rfl : n2 = 0 := by omega
      rw [Nat.mul_zero, Nat.add_zero, Nat.mod_eq_of_lt hr]

theorem modMulFallback_eq (hm : m < 2 ^ 64) (hpos : 0 < m) (n1 n2 : ℕ) :
    modMulFallback n1 n2 m = some (n1 * n2 % m) := by
  rw [modMulFallback, modMulLoop_eq hm _ hpos (Nat.mod_lt n1 hpos), Nat.zero_add, ← Nat.mul_mod]

theorem modMul_eq {n1 n2 : ℕ} (hm : m < 2 ^ 64) (hpos : 0 < m) (hn1 : n1 < 2 ^ 64) (hn2 : n2 < 2 ^ 64) :
    modMul hasInt128 n1 n2 m = some (n1 * n2 % m) := by
  unfold modMul
  split
  · have hproduct : n1 * n2 < 2 ^ 64 * 2 ^ 64 := Nat.mul_lt_mul'' hn1 hn2
    rw [← Nat.pow_add] at hproduct
    rw [Nat.mod_eq_of_lt hproduct, Nat.mod_eq_of_lt ((Nat.mod_lt _ hpos).trans hm)]
  · exact modMulFallback_eq hm hpos n1 n2

theorem modPowLoop_eq (hm : m < 2 ^ 64) (e : ℕ) :
    ∀ {r b : ℕ}, r < m → b < m → modPowLoop hasInt128 m r b e = some (r * b ^ e % m) := by
  induction e using Nat.strong_induction_on with
  | _ e ih =>
    intro r b hr hb
    have hpos : 0 < m := Nat.zero_lt_of_lt hr
    rw [modPowLoop]
    split
    · rename_i he
      have hhalf : e >>> 1 = e / 2 := Nat.shiftRight_one e
      have hsquare : (b * b % m) ^ (e / 2) % m = b ^ (2 * (e / 2)) % m := by
        rw [← Nat.pow_mod, Nat.pow_mul, Nat.pow_two]
      have hnext : ∀ r' < m, modPowLoop hasInt128 m r' (b * b % m) (e / 2) = some (r' * b ^ (2 * (e / 2)) % m) := by
        intro r' hr'
        rw [ih (e / 2) (by omega) hr' (Nat.mod_lt _ hpos), Nat.mul_mod, hsquare, ← Nat.mul_mod]
      change ((if e &&& 1 ≠ 0 then modMul hasInt128 r b m else some r).bind fun r =>
        (modMul hasInt128 b b m).bind fun b => modPowLoop hasInt128 m r b (e >>> 1)) = _
      rw [modMul_eq hm hpos (hb.trans hm) (hb.trans hm), hhalf, modMul_eq hm hpos (hr.trans hm) (hb.trans hm)]
      split
      · rename_i hodd
        have hsplit : e = 2 * (e / 2) + 1 := by
          have := (and_one_ne_zero_iff e).mp hodd
          omega
        change modPowLoop hasInt128 m (r * b % m) (b * b % m) (e / 2) = _
        rw [hnext _ (Nat.mod_lt _ hpos), Nat.mod_mul_mod]
        conv_rhs => rw [hsplit]
        congr 2
        ring
      · rename_i heven
        have hsplit : e = 2 * (e / 2) := by
          have := mt (and_one_ne_zero_iff e).mpr heven
          omega
        change modPowLoop hasInt128 m r (b * b % m) (e / 2) = _
        rw [hnext r hr, ← hsplit]
    · rename_i hzero
      obtain rfl : e = 0 := by omega
      rw [Nat.pow_zero, Nat.mul_one, Nat.mod_eq_of_lt hr]

theorem modPow_eq (hm : m < 2 ^ 64) (htwo : 2 ≤ m) (b e : ℕ) : modPow hasInt128 b e m = some (b ^ e % m) := by
  rw [modPow, modPowLoop_eq hm e (by omega) (Nat.mod_lt _ (by omega)), Nat.one_mul, ← Nat.pow_mod]

/-! ## 3. Square roots of one -/

theorem square_root_of_one {n z : ℕ} (hn : n.Prime) (h : z * z % n = 1) : z % n = 1 ∨ z % n = n - 1 := by
  have htwo := hn.two_le
  have hz : 0 < z := by
    rcases Nat.eq_zero_or_pos z with rfl | hz
    · rw [Nat.mul_zero, Nat.zero_mod] at h
      exact absurd h (by decide)
    · exact hz
  have hfactors : z * z - 1 = (z + 1) * (z - 1) := by
    obtain ⟨w, rfl⟩ := Nat.exists_eq_add_of_lt hz
    rw [Nat.zero_add, Nat.add_sub_cancel, Nat.sub_eq_iff_eq_add (Nat.mul_pos (by omega) (by omega))]
    ring
  have hdvd : n ∣ (z + 1) * (z - 1) := by
    rw [← hfactors]
    exact (Nat.modEq_iff_dvd' (Nat.mul_pos hz hz)).mp (by rw [Nat.ModEq, h, Nat.mod_eq_of_lt htwo])
  rcases hn.dvd_mul.mp hdvd with hplus | hminus
  · right
    obtain ⟨k, hk⟩ := hplus
    have hkpos : 0 < k := Nat.pos_of_ne_zero fun hzero => by rw [hzero] at hk; omega
    obtain ⟨k, rfl⟩ := Nat.exists_eq_add_of_lt hkpos
    have hz' : z = n - 1 + n * k := by
      rw [Nat.zero_add, Nat.mul_succ] at hk
      omega
    rw [hz', Nat.add_mul_mod_self_left, Nat.mod_eq_of_lt (by omega)]
  · left
    have := (Nat.modEq_iff_dvd' hz).mpr hminus
    rw [Nat.ModEq, Nat.mod_eq_of_lt htwo] at this
    exact this.symm

/-- **Back from the last square**: the first number is one, or a square before the last is minus one. -/
theorem first_or_minus_one {n y : ℕ} (hn : n.Prime) :
    ∀ {s : ℕ}, y ^ 2 ^ s % n = 1 → y % n = 1 ∨ ∃ r < s, y ^ 2 ^ r % n = n - 1 := by
  intro s
  induction s with
  | zero =>
    intro h
    rw [Nat.pow_zero, Nat.pow_one] at h
    exact Or.inl h
  | succ s ih =>
    intro h
    rw [Nat.pow_succ, Nat.pow_mul, Nat.pow_two] at h
    rcases square_root_of_one hn h with hone | hminus
    · exact (ih hone).imp_right fun ⟨r, hr, hroot⟩ => ⟨r, by omega, hroot⟩
    · exact Or.inr ⟨s, by omega, hminus⟩

theorem squareLoop_true {n : ℕ} (hn : n < 2 ^ 64) (hpos : 0 < n) :
    ∀ {left x : ℕ}, x < n → (∃ r < left, x ^ 2 ^ (r + 1) % n = n - 1) → squareLoop hasInt128 n x left = some true := by
  intro left
  induction left with
  | zero =>
    rintro x - ⟨r, hr, -⟩
    exact absurd hr (Nat.not_lt_zero r)
  | succ left ih =>
    rintro x hx ⟨r, hr, hroot⟩
    rw [squareLoop, modMul_eq hn hpos (hx.trans hn) (hx.trans hn)]
    change (if x * x % n = n - 1 then some true else squareLoop hasInt128 n (x * x % n) left) = some true
    split
    · rfl
    · rename_i hother
      cases r with
      | zero =>
        rw [Nat.zero_add, Nat.pow_one, Nat.pow_two] at hroot
        exact absurd hroot hother
      | succ r =>
        refine ih (Nat.mod_lt _ hpos) ⟨r, by omega, ?_⟩
        rwa [← Nat.pow_mod, ← Nat.pow_two, ← Nat.pow_mul, ← Nat.pow_succ']

theorem millerRabinTest_prime {n a d s : ℕ} (hn : n < 2 ^ 64) (hprime : n.Prime) (hd : n - 1 = 2 ^ s * d)
    (ha : a % n ≠ 0) : millerRabinTest hasInt128 n a d s = some true := by
  have htwo := hprime.two_le
  have hfermat : (a % n) ^ (n - 1) % n = 1 := by
    have hcoprime : (a % n).Coprime n :=
      (Nat.coprime_of_lt_prime ha (Nat.mod_lt _ (by omega)) hprime).symm
    have := Nat.ModEq.pow_totient hcoprime
    rwa [Nat.totient_prime hprime, Nat.ModEq, Nat.mod_eq_of_lt htwo] at this
  rw [hd, Nat.mul_comm, Nat.pow_mul, Nat.pow_mod] at hfermat
  rw [millerRabinTest, modPow_eq hn htwo]
  change (if (a % n) ^ d % n = 1 ∨ (a % n) ^ d % n = n - 1 then some true
    else squareLoop hasInt128 n ((a % n) ^ d % n) (s - 1)) = some true
  split
  · rfl
  · rename_i hneither
    obtain ⟨hone, hminus⟩ := not_or.mp hneither
    have hlt : (a % n) ^ d % n < n := Nat.mod_lt _ (by omega)
    refine squareLoop_true hn (by omega) hlt ?_
    rcases first_or_minus_one hprime hfermat with hfirst | ⟨r, hr, hroot⟩
    · rw [Nat.mod_mod] at hfirst
      exact absurd hfirst hone
    · cases r with
      | zero =>
        rw [Nat.pow_zero, Nat.pow_one, Nat.mod_mod] at hroot
        exact absurd hroot hminus
      | succ r => exact ⟨r, by omega, hroot⟩

/-! ## 4. Primes -/

theorem decompose_eq (d : ℕ) : ∀ {s : ℕ}, 0 < d →
    ∃ odd twos, decompose d s = some (odd, s + twos) ∧ d = 2 ^ twos * odd := by
  induction d using Nat.strong_induction_on with
  | _ d ih =>
    intro s hd
    rw [decompose, if_neg hd.ne']
    split
    · rename_i heven
      rw [Nat.and_one_is_mod] at heven
      obtain ⟨odd, twos, hdecompose, hhalf⟩ := ih (d / 2) (by omega) (s := s + 1) (by omega)
      refine ⟨odd, twos + 1, ?_, ?_⟩
      · rw [Nat.shiftRight_one, hdecompose, Nat.add_assoc, Nat.add_comm 1]
      · rw [Nat.pow_succ', Nat.mul_assoc, ← hhalf]
        omega
    · exact ⟨d, 0, rfl, by rw [Nat.pow_zero, Nat.one_mul]⟩

theorem testWitnesses_prime {n d s : ℕ} (hn : n < 2 ^ 64) (hprime : n.Prime) (hd : n - 1 = 2 ^ s * d) (as : List ℕ) :
    testWitnesses hasInt128 n d s as = some true := by
  induction as with
  | nil => rfl
  | cons a rest ih =>
    rw [testWitnesses]
    split
    · rename_i ha
      rw [millerRabinTest_prime hn hprime hd ha]
      exact ih
    · exact ih

theorem isPrime_prime {n : ℕ} (hn : n < 2 ^ 64) (hprime : n.Prime) : isPrime hasInt128 n = some true := by
  have htwo := hprime.two_le
  rw [isPrime, if_neg (Nat.not_lt.mpr htwo)]
  cases hfound : smallPrimes.find? (fun p => n % p = 0) with
  | some p =>
    have hmem := List.mem_of_find?_eq_some hfound
    have hone : p ≠ 1 := fun h => absurd (h ▸ hmem) (by decide)
    have hzero : n % p = 0 := by simpa using List.find?_some hfound
    have hdvd : p ∣ n := Nat.dvd_of_mod_eq_zero hzero
    exact congrArg some (decide_eq_true ((Nat.dvd_prime hprime).mp hdvd |>.resolve_left hone).symm)
  | none =>
    obtain ⟨odd, twos, hdecompose, hd⟩ := decompose_eq (n - 1) (s := 0) (by omega)
    rw [Nat.zero_add] at hdecompose
    change (decompose (n - 1) 0).bind (fun p => testWitnesses hasInt128 n p.1 p.2 witnesses) = some true
    rw [hdecompose]
    exact testWitnesses_prime hn hprime hd witnesses

/-- **The arithmetic is exact with and without integers of 128 bits**, and so no prime is rejected. -/
theorem primality_exact (hasInt128 : Bool) :
    (∀ m n1 n2 : ℕ, m < 2 ^ 64 → n1 < 2 ^ 64 → n2 < 2 ^ 64 → 1 ≤ m →
      modMulFallback n1 n2 m = some (n1 * n2 % m) ∧ modMul hasInt128 n1 n2 m = some (n1 * n2 % m)) ∧
    (∀ m b e : ℕ, m < 2 ^ 64 → b < 2 ^ 64 → e < 2 ^ 64 → 2 ≤ m → modPow hasInt128 b e m = some (b ^ e % m)) ∧
    ∀ n : ℕ, n < 2 ^ 64 → n.Prime → isPrime hasInt128 n = some true :=
  ⟨fun _ n1 n2 hm hn1 hn2 hpos => ⟨modMulFallback_eq hm hpos n1 n2, modMul_eq hm hpos hn1 hn2⟩,
    fun _ b e hm _ _ htwo => modPow_eq hm htwo b e, fun _ hn hprime => isPrime_prime hn hprime⟩

/-- The largest modulus, and a prime behind the small ones. -/
theorem primality_exact_largest :
    modMulFallback (2 ^ 64 - 2) (2 ^ 64 - 2) (2 ^ 64 - 1) = some 1 ∧ isPrime false 41 = some true := by
  obtain ⟨hproduct, -, hprime⟩ := primality_exact false
  exact ⟨(hproduct _ _ _ (by decide) (by decide) (by decide) (by decide)).1, hprime 41 (by decide) (by decide)⟩

end Primality

end Cccl.Cuco
