/-
# `random_bijection`

A Feistel bijection permutes as many numbers as a power of two.  For another number of elements it is applied
until the value is an index again, which is a walk along its cycles.

Between two applications the value is converted to the index type.  For a type that has all values of the
Feistel bijection this does nothing, and the shuffle is a permutation of the indices.  But the bijection has
at least 8 bits: a signed type of 8 bits makes negative numbers of the upper half of its values, and these
count as indices; `bool` makes one value of all but zero.  For these types it depends on the keys whether the
shuffle is a permutation (`isPermutation_iff`).  More than `2 ^ 63` elements are not shuffled at all, or only as many
as are left after a conversion to 64 bits.
-/
import Cccl.Lib.IntegerTypes
import Cccl.Random.FeistelBijection

namespace Cccl.Random

open CycleWalk IntegerTypes

/-! ## 1. Index types -/

/-- The types with `is_integral_v`. -/
inductive IndexType
  | bool
  | integer (T : IntegerType)
  deriving DecidableEq

namespace IndexType

variable (m : DataModel)

def staticCast : IndexType → ℤ → ℤ
  | .bool, v => if v = 0 then 0 else 1
  | .integer T, v => T.staticCast m v

def max : IndexType → ℕ
  | .bool => 1
  | .integer T => T.max m

end IndexType

/-! ## 2. The shuffle -/

structure RandomBijection where
  bijection : FeistelBijection
  numElements : ℤ

namespace RandomBijection

variable (m : DataModel) (I : IndexType)

/-- The constructor.  The number of elements is converted to the index type, and for the Feistel bijection to
64 bits. -/
def ofNumElements (numElements : ℕ) (keys : RoundKeys) : RandomBijection where
  bijection := .ofNumElements (I.staticCast m numElements % 2 ^ 64).toNat keys
  numElements := I.staticCast m numElements

/-- `operator()`, for so many iterations of its loop. -/
def call (b : RandomBijection) : ℕ → ℤ → Option ℤ
  | 0, _ => none
  | fuel + 1, n =>
    match b.bijection.apply (n % 2 ^ 64).toNat with
    | none => none
    | some v =>
      if b.numElements ≤ I.staticCast m v then b.call fuel (I.staticCast m v) else some (I.staticCast m v)

/-- `operator()` terminates with a value. -/
def Returns (b : RandomBijection) (n k : ℤ) : Prop := ∃ fuel, b.call m I fuel n = some k

end RandomBijection

open RandomBijection FeistelBijection

variable (m : DataModel) (I : IndexType) (N : ℕ) (keys : RoundKeys)

/-- **The shuffle is a permutation**: of the indices, and its Feistel bijection of all numbers with so many
bits. -/
structure IsPermutation : Prop where
  feistel : Bijects (2 ^ (RandomBijection.ofNumElements m I N keys).bijection.totalBits) fun v w =>
    (RandomBijection.ofNumElements m I N keys).bijection.apply v = some w
  shuffle : Bijects N fun n k => Returns m I (RandomBijection.ofNumElements m I N keys) n k

/-- The values that a Feistel bijection takes from a start. -/
def valueAfter (b : FeistelBijection) (n : ℕ) : ℕ → Option ℕ
  | 0 => some n
  | k + 1 => (valueAfter b n k).bind b.apply

/-- No cycle leaves the range of the type between two indices. -/
def CyclesStay (b : FeistelBijection) (N max : ℕ) : Prop :=
  ∀ n < N, ∀ k v, valueAfter b n (k + 1) = some v →
    (∀ j < k, ∀ u, valueAfter b n (j + 1) = some u → N ≤ u) → v ≤ max

/-- When the shuffle is a permutation. -/
def Shufflable : IndexType → Prop
  | .bool => N = 1 ∧
    ((fromTotalBits 8 keys).apply 0 = some 0 ∨ (fromTotalBits 8 keys).apply 1 = some 0)
  | .integer T => N ≤ T.max m ∧ N ≤ 2 ^ 63 ∧
    (8 ≤ T.digits m ∨ CyclesStay (FeistelBijection.ofNumElements N keys) N (T.max m))

variable {m I N keys}

/-! ## 3. Numbers of bits -/

theorem le_two_pow_totalBitsOf (hN : 1 ≤ N) : N ≤ 2 ^ totalBitsOf N := by
  have hmax : max 1 N = N := max_eq_right hN
  have hlt := Nat.lt_size_self (N - 1)
  have hle : 2 ^ (N - 1).size ≤ 2 ^ totalBitsOf N := by
    refine Nat.pow_le_pow_right (by decide) ?_
    rw [totalBitsOf, hmax]
    exact Nat.le_max_right _ _
  omega

theorem totalBitsOf_le {d : ℕ} (hN : 1 ≤ N) (hd : N ≤ 2 ^ d) : totalBitsOf N ≤ max 8 d := by
  have hmax : max 1 N = N := max_eq_right hN
  have hsize : (N - 1).size ≤ d := Nat.size_le.mpr (by omega)
  rw [totalBitsOf, hmax]
  omega

theorem totalBitsOf_le_of_le (hN : N ≤ 2 ^ 63) : totalBitsOf N ≤ 63 := by
  rcases Nat.eq_zero_or_pos N with rfl | hpos
  · have hempty : totalBitsOf 0 = 8 := by
      rw [totalBitsOf, Nat.max_eq_left (Nat.zero_le 1), Nat.sub_self, Nat.size_zero]
      rfl
    omega
  · exact (totalBitsOf_le hpos hN).trans_eq rfl

theorem le_totalBitsOf (hN : 2 ^ 63 < N) : 64 ≤ totalBitsOf N := by
  have hmax : max 1 N = N := max_eq_right (by omega)
  have hsize : 63 < (N - 1).size := Nat.lt_size.mpr (by omega)
  rw [totalBitsOf, hmax]
  omega

theorem totalBits_eq (t : ℕ) : (fromTotalBits t keys).totalBits = t := by
  change t / 2 + (t + 1) / 2 = t
  omega

/-! ## 4. The loop -/

theorem call_succ {b : RandomBijection} (fuel : ℕ) {n c : ℤ} {v : ℕ}
    (hv : b.bijection.apply (n % 2 ^ 64).toNat = some v) (hc : I.staticCast m v = c) :
    b.call m I (fuel + 1) n = if b.numElements ≤ c then b.call m I fuel c else some c := by
  subst hc
  rw [call, hv]

/-- What the loop returns is a converted value of the Feistel bijection below the number of elements. -/
theorem call_eq_some {b : RandomBijection} {k : ℤ} : ∀ {fuel : ℕ} {n : ℤ}, b.call m I fuel n = some k →
    ∃ u v, b.bijection.apply u = some v ∧ k = I.staticCast m v ∧ k < b.numElements
  | 0, n, h => absurd h (by simp [call])
  | fuel + 1, n, h => by
    rw [call] at h
    split at h
    · exact absurd h (by simp)
    · rename_i v hv
      split at h
      · exact call_eq_some h
      · rename_i hlt
        obtain rfl := Option.some.inj h
        exact ⟨_, v, hv, rfl, not_le.mp hlt⟩

theorem walk_unique {α : Type} {f : α → α} {p : α → Prop} [DecidablePred p] {fuel fuel' : ℕ} {x y y' : α}
    (h : walk f p fuel x = some y) (h' : walk f p fuel' x = some y') : y = y' := by
  obtain ⟨k, -, rfl, hy, hfirst⟩ := walk_eq_some_iff.mp h
  obtain ⟨k', -, rfl, hy', hfirst'⟩ := walk_eq_some_iff.mp h'
  rcases Nat.lt_trichotomy k k' with hlt | rfl | hlt
  · exact absurd hy (hfirst' k hlt)
  · rfl
  · exact absurd hy' (hfirst k' hlt)

section Integer

variable {T : IntegerType}

theorem staticCast_neg (hN : 1 ≤ N) (hT : N ≤ T.max m) {v : ℕ} (hv : v < 2 ^ totalBitsOf N)
    (hbeyond : T.max m < v) : T.staticCast m v < 0 ∧ T.digits m < 8 := by
  have hpos := Nat.two_pow_pos (T.digits m)
  have hmax : T.max m = 2 ^ T.digits m - 1 := rfl
  have hbits := totalBitsOf_le (d := T.digits m) hN (by omega)
  have hdigits : T.digits m < 8 := by
    by_contra hge
    rw [max_eq_right (Nat.not_lt.mp hge)] at hbits
    have hle : 2 ^ totalBitsOf N ≤ 2 ^ T.digits m := Nat.pow_le_pow_right (by decide) hbits
    omega
  refine ⟨?_, hdigits⟩
  have hbyte : T = ⟨.char, true⟩ := by
    obtain ⟨rank, signed⟩ := T
    revert hdigits
    cases m <;> cases rank <;> cases signed <;> decide
  have hlow : 2 ^ totalBitsOf N ≤ 2 ^ 8 := Nat.pow_le_pow_right (by decide) (by omega)
  have hseven : T.max m = 127 := by
    rw [hbyte]
    cases m <;> rfl
  have hcast : T.staticCast m v = v - 256 := by
    refine IntegerType.staticCast_eq ?_ ?_
    · rw [hbyte]
      cases m
      all_goals exact ⟨by change (-2 ^ 7 : ℤ) ≤ _; omega, by change _ ≤ ((127 : ℕ) : ℤ); omega⟩
    · have height : T.bits m = 8 := by
        rw [hbyte]
        cases m <;> rfl
      rw [height]
      omega
  omega

/-- The Feistel bijection of an index type that has the number of elements. -/
theorem bijection_eq (hT : N ≤ T.max m) (hN : N ≤ 2 ^ 63) :
    RandomBijection.ofNumElements m (.integer T) N keys = ⟨FeistelBijection.ofNumElements N keys, N⟩ := by
  have hcast : T.staticCast m N = N := IntegerType.staticCast_of_has (IntegerType.has_of_le hT)
  have hword : ((N : ℤ) % 2 ^ 64).toNat = N := by omega
  simp only [RandomBijection.ofNumElements, IndexType.staticCast, hcast, hword]

/-- **The loop is a walk** that also ends where it leaves the type. -/
theorem call_eq_walk (hpos : 1 ≤ N) (hT : N ≤ T.max m) (hN : N ≤ 2 ^ 63)
    {f : Fin (2 ^ totalBitsOf N) → Fin (2 ^ totalBitsOf N)}
    (hf : ∀ v : Fin (2 ^ totalBitsOf N), (FeistelBijection.ofNumElements N keys).apply v.val = some (f v).val) :
    ∀ (fuel : ℕ) (v : Fin (2 ^ totalBitsOf N)),
      RandomBijection.call m (.integer T) ⟨FeistelBijection.ofNumElements N keys, N⟩ fuel v.val =
        (walk f (fun w => w.val < N ∨ T.max m < w.val) fuel v).map fun w =>
          T.staticCast m w.val
  | 0, _ => rfl
  | fuel + 1, v => by
    have hbits := totalBitsOf_le_of_le hN
    have hle : 2 ^ totalBitsOf N ≤ 2 ^ 63 := Nat.pow_le_pow_right (by decide) hbits
    have hword : ((v.val : ℤ) % 2 ^ 64).toNat = v.val := by
      have hv := v.isLt
      omega
    have hvalue := hf v
    rw [← hword] at hvalue
    by_cases hbeyond : T.max m < (f v).val
    · have hneg := (staticCast_neg hpos hT (f v).isLt hbeyond).1
      have hstop : ¬ (N : ℤ) ≤ T.staticCast m (f v).val := by omega
      have hcall := call_succ (m := m) (I := .integer T) fuel
        (b := ⟨FeistelBijection.ofNumElements N keys, N⟩) hvalue rfl
      have hend : (f v).val < N ∨ T.max m < (f v).val := .inr hbeyond
      rw [hcall, walk, if_pos hend]
      exact if_neg hstop
    · have hcast : T.staticCast m (f v).val = (f v).val :=
        IntegerType.staticCast_of_has (IntegerType.has_of_le (Nat.not_lt.mp hbeyond))
      have hcall := call_succ (m := m) (I := .integer T) fuel
        (b := ⟨FeistelBijection.ofNumElements N keys, N⟩) hvalue hcast
      rw [hcall, walk]
      dsimp only
      by_cases hindex : (f v).val < N
      · rw [if_neg (by omega), if_pos (.inl hindex), Option.map_some, hcast]
      · rw [if_pos (by omega), if_neg (by omega)]
        exact call_eq_walk hpos hT hN hf fuel (f v)

/-- **The shuffle is a permutation if and only if no walk leaves the type.** -/
theorem isPermutation_iff_walk (hpos : 1 ≤ N) (hT : N ≤ T.max m) (hN : N ≤ 2 ^ 63)
    {f : Fin (2 ^ totalBitsOf N) → Fin (2 ^ totalBitsOf N)}
    (hf : ∀ v : Fin (2 ^ totalBitsOf N), (FeistelBijection.ofNumElements N keys).apply v.val = some (f v).val) :
    IsPermutation m (.integer T) N keys ↔
      ∀ n : Fin (2 ^ totalBitsOf N), n.val < N → ∀ fuel w,
        walk f (fun w => w.val < N ∨ T.max m < w.val) fuel n = some w → w.val < N := by
  have hbits := totalBitsOf_le_of_le hN
  have hroom := le_two_pow_totalBitsOf hpos
  have hfeistel := FeistelBijection.bijects keys hbits
  have hinj : Function.Injective f := fun v v' h =>
    Fin.ext (hfeistel.injective v v.isLt v' v'.isLt _ (hf v) (by rw [h]; exact hf v'))
  have hcall := call_eq_walk (T := T) hpos hT hN hf
  have hstop : ∀ {fuel : ℕ} {n w : Fin (2 ^ totalBitsOf N)},
      walk f (fun w => w.val < N ∨ T.max m < w.val) fuel n = some w → w.val < N ∨ T.max m < w.val :=
    fun h => by
      obtain ⟨-, -, -, hp, -⟩ := walk_eq_some_iff.mp h
      exact hp
  constructor
  · rintro ⟨-, hshuffle⟩ n hn fuel w hwalk
    rw [bijection_eq hT hN] at hshuffle
    obtain ⟨k, -, fuel', hk⟩ := hshuffle.maps n.val hn
    rw [hcall fuel' n] at hk
    obtain ⟨w', hwalk', hcast⟩ := Option.map_eq_some_iff.mp hk
    obtain rfl := walk_unique hwalk hwalk'
    refine (hstop hwalk).resolve_right fun hbeyond => ?_
    have hneg := (staticCast_neg hpos hT w.isLt hbeyond).1
    omega
  · intro hwalk
    -- a walk ends in an index, which the type has
    have hend : ∀ {fuel : ℕ} {n : Fin (2 ^ totalBitsOf N)} {k : ℤ}, n.val < N →
        RandomBijection.call m (.integer T) ⟨FeistelBijection.ofNumElements N keys, N⟩ fuel n.val = some k →
          ∃ w, walk f (fun w => w.val < N ∨ T.max m < w.val) fuel n = some w ∧ k = w.val := by
      intro fuel n k hn hk
      rw [hcall fuel n] at hk
      obtain ⟨w, hw, hcast⟩ := Option.map_eq_some_iff.mp hk
      have hlt := hwalk n hn fuel w hw
      refine ⟨w, hw, ?_⟩
      rw [← hcast, IntegerType.staticCast_of_has (IntegerType.has_of_le (by omega))]
    refine ⟨?_, ?_⟩
    · rw [bijection_eq hT hN]
      have htotal : (FeistelBijection.ofNumElements N keys).totalBits = totalBitsOf N := totalBits_eq _
      rw [htotal]
      exact hfeistel
    · rw [bijection_eq hT hN]
      refine bijects_of_injective (fun n hn => ?_) fun n hn n' hn' k hk hk' => ?_
      · have hp : (⟨n, by omega⟩ : Fin (2 ^ totalBitsOf N)).val < N ∨ T.max m < n := .inl hn
        obtain ⟨fuel, w, hw⟩ := exists_walk (p := fun w : Fin (2 ^ totalBitsOf N) => w.val < N ∨ T.max m < w.val)
          hinj hp
        have hlt := hwalk _ hn fuel w hw
        refine ⟨w, hlt, fuel, ?_⟩
        have hresult := hcall fuel ⟨n, by omega⟩
        rw [hw, Option.map_some, IntegerType.staticCast_of_has (IntegerType.has_of_le (by omega))] at hresult
        exact hresult
      · obtain ⟨fuel, hfuel⟩ := hk
        obtain ⟨fuel', hfuel'⟩ := hk'
        obtain ⟨w, hw, hkw⟩ := hend (n := ⟨n, by omega⟩) hn hfuel
        obtain ⟨w', hw', hkw'⟩ := hend (n := ⟨n', by omega⟩) hn' hfuel'
        obtain rfl : w = w' := Fin.ext (by omega)
        exact congrArg Fin.val (walk_injective hinj (.inl hn) (.inl hn') hw hw')

theorem valueAfter_eq {b : FeistelBijection} {t : ℕ} {f : Fin (2 ^ t) → Fin (2 ^ t)}
    (hf : ∀ v : Fin (2 ^ t), b.apply v.val = some (f v).val) (n : Fin (2 ^ t)) :
    ∀ k, valueAfter b n.val k = some (f^[k] n).val
  | 0 => rfl
  | k + 1 => by
    rw [valueAfter, valueAfter_eq hf n k, Option.bind_some, hf, Function.iterate_succ_apply']

/-- **When the shuffle is a permutation**, for an index type that has the number of elements. -/
theorem isPermutation_iff_cyclesStay (hpos : 1 ≤ N) (hT : N ≤ T.max m) (hN : N ≤ 2 ^ 63) :
    IsPermutation m (.integer T) N keys ↔
      CyclesStay (FeistelBijection.ofNumElements N keys) N (T.max m) := by
  have hbits := totalBitsOf_le_of_le hN
  have hroom := le_two_pow_totalBitsOf hpos
  have hmaps : ∀ v : Fin (2 ^ totalBitsOf N), ∃ w : Fin (2 ^ totalBitsOf N),
      (FeistelBijection.ofNumElements N keys).apply v.val = some w.val := fun v => by
    obtain ⟨w, hw, happly⟩ := (FeistelBijection.bijects keys hbits).maps v.val v.isLt
    exact ⟨⟨w, hw⟩, happly⟩
  choose f hf using hmaps
  rw [isPermutation_iff_walk hpos hT hN hf]
  have hvalue := valueAfter_eq hf
  constructor
  · intro hwalk n hn k v hv hfirst
    by_contra hbeyond
    obtain ⟨n', hn'⟩ : ∃ n' : Fin (2 ^ totalBitsOf N), n'.val = n := ⟨⟨n, by omega⟩, rfl⟩
    subst hn'
    rw [hvalue] at hv
    have hlast : (f^[k + 1] n').val = v := Option.some.inj hv
    have hp : (f^[k + 1] n').val < N ∨ T.max m < (f^[k + 1] n').val := .inr (by omega)
    -- the walk ends there, or before
    obtain ⟨fuel, w, hw⟩ := exists_walk_of_iterate (f := f)
      (p := fun w : Fin (2 ^ totalBitsOf N) => w.val < N ∨ T.max m < w.val) hp
    have hindex := hwalk n' hn fuel w hw
    obtain ⟨k', -, hend, -, hbefore⟩ := walk_eq_some_iff.mp hw
    rcases Nat.lt_trichotomy k k' with hlt | rfl | hlt
    · exact hbefore k hlt hp
    · rw [hend] at hlast
      omega
    · have hle := hfirst k' hlt _ (hvalue n' (k' + 1))
      rw [hend] at hle
      omega
  · intro hstay n hn fuel w hwalk
    obtain ⟨k, -, hend, hp, hfirst⟩ := walk_eq_some_iff.mp hwalk
    refine hp.resolve_right fun hbeyond => ?_
    refine absurd (hstay n.val hn k w.val (by rw [hvalue, hend]) fun j hj u hu => ?_) (Nat.not_le.mpr hbeyond)
    rw [hvalue] at hu
    obtain rfl := Option.some.inj hu
    exact Nat.not_lt.mp fun hlt => hfirst j hj (.inl hlt)

theorem not_isPermutation_of_wide (hT : N ≤ T.max m) (hN : 2 ^ 63 < N) :
    ¬ IsPermutation m (.integer T) N keys := by
  intro h
  have hcast : T.staticCast m N = N := IntegerType.staticCast_of_has (IntegerType.has_of_le hT)
  obtain ⟨b, hb⟩ : ∃ b, RandomBijection.ofNumElements m (.integer T) N keys = b := ⟨_, rfl⟩
  have hbijection : b.bijection = FeistelBijection.ofNumElements (N % 2 ^ 64) keys := by
    have hword : ((N : ℤ) % 2 ^ 64).toNat = N % 2 ^ 64 := by omega
    rw [← hb, RandomBijection.ofNumElements, IndexType.staticCast, hcast, hword]
  have hcount : b.numElements = N := hb ▸ hcast
  obtain ⟨hfeistel, hshuffle⟩ := h
  rw [hb] at hfeistel hshuffle
  rw [hbijection] at hfeistel
  by_cases hwide : 2 ^ 63 < N % 2 ^ 64
  · obtain ⟨w, -, happly⟩ := hfeistel.maps 0 (Nat.two_pow_pos _)
    rw [FeistelBijection.ofNumElements, apply_of_wide (le_totalBitsOf hwide)] at happly
    exact absurd happly (by simp)
  · -- the values have fewer bits than the indices
    obtain ⟨n, hn, fuel, hcall⟩ := hshuffle.onto (2 ^ 63) hN
    obtain ⟨u, v, happly, hk, -⟩ := call_eq_some hcall
    rw [hbijection] at happly
    have hbits := totalBitsOf_le_of_le (Nat.not_lt.mp hwide)
    have hv : v < 2 ^ totalBitsOf (N % 2 ^ 64) := apply_lt hbits happly
    have hle : 2 ^ totalBitsOf (N % 2 ^ 64) ≤ 2 ^ 63 := Nat.pow_le_pow_right (by decide) hbits
    have hsame : T.staticCast m v = v := IntegerType.staticCast_of_has (IntegerType.has_of_le (by omega))
    rw [IndexType.staticCast, hsame] at hk
    omega

/-- The number of elements may not itself be a value of the type. -/
theorem not_isPermutation_of_max (hT : N = T.max m + 1) : ¬ IsPermutation m (.integer T) N keys := by
  rintro ⟨-, hshuffle⟩
  have hpos := Nat.two_pow_pos (T.digits m)
  have hmax : T.max m = 2 ^ T.digits m - 1 := rfl
  have hpow : N = 2 ^ T.digits m := by omega
  have hle : T.min m ≤ T.max m :=
    (IntegerType.has_of_le (Nat.zero_le (T.max m))).1.trans (Int.natCast_nonneg _)
  have hmin : T.staticCast m N = T.min m := by
    have hcast : (N : ℤ) = 2 ^ T.digits m := by rw [hpow, Nat.cast_pow]; rfl
    cases hsigned : T.signed with
    | true =>
      refine IntegerType.staticCast_eq ⟨le_refl _, hle⟩ ?_
      rw [IntegerType.min, if_pos hsigned, hcast, ← IntegerType.digits_of_signed hsigned, pow_succ, sub_neg_eq_add,
        ← mul_two]
    | false =>
      refine IntegerType.staticCast_eq ⟨le_refl _, hle⟩ ?_
      rw [IntegerType.min, if_neg (by rw [hsigned]; decide), hcast, IntegerType.digits_of_unsigned hsigned, sub_zero]
  obtain ⟨k, -, fuel, hcall⟩ := hshuffle.maps 0 (by omega)
  obtain ⟨-, v, -, hk, hlt⟩ := call_eq_some hcall
  have hhas := (IntegerType.has_staticCast (m := m) (T := T) v).1
  have hcount : (RandomBijection.ofNumElements m (.integer T) N keys).numElements = T.min m := hmin
  rw [hcount, hk] at hlt
  exact absurd hhas (not_le.mpr hlt)

/-- A type with 8 digits or more has all values of the Feistel bijection. -/
theorem cyclesStay_of_digits (hpos : 1 ≤ N) (hT : N ≤ T.max m) (hN : N ≤ 2 ^ 63) (hdigits : 8 ≤ T.digits m) :
    CyclesStay (FeistelBijection.ofNumElements N keys) N (T.max m) := by
  intro n _ k v hv _
  by_contra hbeyond
  obtain ⟨u, -, happly⟩ := Option.bind_eq_some_iff.mp hv
  have hlt : v < 2 ^ totalBitsOf N := apply_lt (totalBitsOf_le_of_le hN) happly
  have hnarrow := (staticCast_neg hpos hT hlt (Nat.not_le.mp hbeyond)).2
  omega

end Integer

/-! ## 5. `bool` -/

variable (m keys) in
theorem bool_bijection_eq (hN : N = 1 ∨ N = 2) :
    RandomBijection.ofNumElements m .bool N keys = ⟨fromTotalBits 8 keys, 1⟩ := by
  have hcast : IndexType.staticCast m .bool N = 1 := by
    rcases hN with rfl | rfl <;> rfl
  have hbits : totalBitsOf ((1 : ℤ) % 2 ^ 64).toNat = 8 := by
    have hone : ((1 : ℤ) % 2 ^ 64).toNat = 1 := by decide
    rw [hone, totalBitsOf, Nat.max_self, Nat.sub_self, Nat.size_zero]
    rfl
  rw [RandomBijection.ofNumElements, hcast, FeistelBijection.ofNumElements, hbits]

/-- From `true`, the loop ends if the value is zero, or never. -/
theorem call_bool_one {v : ℕ} (h1 : (fromTotalBits 8 keys).apply 1 = some v) (hv : v ≠ 0) :
    ∀ fuel, RandomBijection.call m .bool ⟨fromTotalBits 8 keys, 1⟩ fuel 1 = none
  | 0 => rfl
  | fuel + 1 => by
    have hcast : IndexType.staticCast m .bool v = 1 := if_neg (Int.natCast_ne_zero.mpr hv)
    have hcall := call_succ (m := m) (I := .bool) fuel (n := 1)
      (b := ⟨fromTotalBits 8 keys, 1⟩) h1 hcast
    rw [hcall, if_pos (le_refl _)]
    exact call_bool_one h1 hv fuel

theorem isPermutation_bool_iff (hpos : 1 ≤ N) (hN : N - 1 ≤ 1) :
    IsPermutation m .bool N keys ↔ Shufflable m N keys .bool := by
  have hbijection := bool_bijection_eq m keys (by omega : N = 1 ∨ N = 2)
  have hfeistel := FeistelBijection.bijects keys (by decide : 8 ≤ 63)
  obtain ⟨v₀, -, h0⟩ := hfeistel.maps 0 (by decide)
  obtain ⟨v₁, -, h1⟩ := hfeistel.maps 1 (by decide)
  have hcast : ∀ v : ℕ, v ≠ 0 → IndexType.staticCast m .bool v = 1 := fun v hv =>
    if_neg (Int.natCast_ne_zero.mpr hv)
  rw [Shufflable]
  constructor
  · rintro ⟨-, hshuffle⟩
    rw [hbijection] at hshuffle
    have hone : N = 1 := by
      by_contra htwo
      obtain ⟨n, -, fuel, hcall⟩ := hshuffle.onto 1 (by omega)
      obtain ⟨-, -, -, -, hlt⟩ := call_eq_some hcall
      exact lt_irrefl (1 : ℤ) hlt
    refine ⟨hone, ?_⟩
    obtain ⟨k, -, fuel, hcall⟩ := hshuffle.maps 0 (by omega)
    by_contra hnot
    obtain ⟨hne0, hne1⟩ := not_or.mp hnot
    rw [h0, Option.some.injEq] at hne0
    rw [h1, Option.some.injEq] at hne1
    cases fuel with
    | zero => exact absurd hcall (by simp [RandomBijection.call])
    | succ fuel =>
      have hstep := call_succ (m := m) (I := .bool) fuel (n := 0)
        (b := ⟨fromTotalBits 8 keys, 1⟩) h0 (hcast v₀ hne0)
      rw [if_pos (le_refl _), call_bool_one h1 hne1] at hstep
      exact absurd (hstep.symm.trans hcall) (by simp)
  · rintro ⟨rfl, hzero⟩
    refine ⟨?_, ?_⟩
    · rw [hbijection]
      exact hfeistel
    · rw [hbijection]
      have hreturn : Returns m .bool ⟨fromTotalBits 8 keys, 1⟩ 0 0 := by
        by_cases hv : v₀ = 0
        · refine ⟨1, ?_⟩
          rw [hv] at h0
          exact call_succ (m := m) (I := .bool) 0 (n := 0) (b := ⟨fromTotalBits 8 keys, 1⟩) h0 rfl
        · have hv1 : v₁ = 0 := by
            rw [h0, h1, Option.some.injEq, Option.some.injEq] at hzero
            exact hzero.resolve_left hv
          refine ⟨2, ?_⟩
          rw [hv1] at h1
          have hfirst := call_succ (m := m) (I := .bool) 1 (n := 0)
            (b := ⟨fromTotalBits 8 keys, 1⟩) h0 (hcast v₀ hv)
          have hsecond := call_succ (m := m) (I := .bool) 0 (n := 1)
            (b := ⟨fromTotalBits 8 keys, 1⟩) h1 rfl
          rw [hfirst, if_pos (le_refl _)]
          exact hsecond
      refine bijects_of_injective (fun n hn => ⟨0, by decide, ?_⟩) fun n hn n' hn' _ _ _ => by omega
      obtain rfl : n = 0 := by omega
      exact hreturn

/-! ## 6. When the shuffle is a permutation -/

/-- **When the shuffle is a permutation.** -/
theorem isPermutation_iff (m : DataModel) (I : IndexType) (N : ℕ) (keys : RoundKeys) (hN : 1 ≤ N)
    (hI : N - 1 ≤ I.max m) : IsPermutation m I N keys ↔ Shufflable m N keys I := by
  cases I with
  | bool => exact isPermutation_bool_iff hN hI
  | integer T =>
    rw [Shufflable]
    by_cases hT : N ≤ T.max m
    swap
    · have hmax : N = T.max m + 1 := by
        have hI' : N - 1 ≤ T.max m := hI
        omega
      exact iff_of_false (not_isPermutation_of_max hmax) fun h => hT h.1
    by_cases hword : N ≤ 2 ^ 63
    swap
    · exact iff_of_false (not_isPermutation_of_wide hT (Nat.not_le.mp hword)) fun h => hword h.2.1
    rw [isPermutation_iff_cyclesStay hN hT hword]
    constructor
    · exact fun h => ⟨hT, hword, .inr h⟩
    · rintro ⟨-, -, hdigits | h⟩
      · exact cyclesStay_of_digits hN hT hword hdigits
      · exact h

theorem totalBitsOf_eq (hpos : 1 ≤ N) (hN : N ≤ 2 ^ 8) : totalBitsOf N = 8 := by
  have hle : totalBitsOf N ≤ 8 := totalBitsOf_le hpos hN
  have hge : 8 ≤ totalBitsOf N := Nat.le_max_left _ _
  omega

/-- The same key for all rounds: the first values are 221 and 255. -/
def onesKeys : RoundKeys := .replicate 24 1

theorem apply_onesKeys : (fromTotalBits 8 onesKeys).apply 0 = some 221 ∧
    (fromTotalBits 8 onesKeys).apply 1 = some 255 := by decide +kernel

/-- 1000 elements with `int`. -/
theorem isPermutation_thousand : IsPermutation .lp64 (.integer ⟨.int, true⟩) 1000 onesKeys :=
  (isPermutation_iff .lp64 (.integer ⟨.int, true⟩) 1000 onesKeys (by decide) (by decide)).mpr
    ⟨by decide, by decide, .inl (by decide)⟩

/-- 100 elements with `int8_t`: the index 0 becomes -35. -/
theorem not_isPermutation_hundred : ¬ IsPermutation .lp64 (.integer ⟨.char, true⟩) 100 onesKeys := by
  intro h
  rw [isPermutation_iff_cyclesStay (by decide) (by decide) (by decide)] at h
  have hvalue : valueAfter (FeistelBijection.ofNumElements 100 onesKeys) 0 1 = some 221 := by
    rw [FeistelBijection.ofNumElements, totalBitsOf_eq (by decide) (by decide)]
    exact apply_onesKeys.1
  exact absurd (h 0 (by decide) 0 221 hvalue fun j hj => absurd hj (Nat.not_lt_zero j)) (by decide)

end Cccl.Random
