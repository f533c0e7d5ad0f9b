/-
# `__feistel_bijection`

A number of so many bits is cut into a left and a right half, and 24 rounds mix the halves.  With an odd number
of bits the right half is the larger one, by the bit that the left half gets from it.

A round loses nothing.  The factor of the left half is odd, so the low bits of the product determine the left
half, and the new right half shows them; what it shows besides is the top of the right half.  With the left
half known, the rest of the right half comes back from the exclusive or (`round_injective`).  So the rounds
permute the numbers of up to 63 bits (`bijects`).

With 64 bits, the right half would be shifted by all of its 32 bits, and there is no such shift: no value is
mapped at all (`apply_of_wide`).
-/
import Cccl.Lib.CycleWalk
import Mathlib.Data.Nat.Bitwise
import Mathlib.Data.Nat.ModEq
import Mathlib.Data.Nat.Size

namespace Cccl.Random

open CycleWalk

/-! ## 1. The bijection -/

/-- `__keys_`. -/
abbrev RoundKeys := Vector (BitVec 32) 24

structure FeistelBijection where
  rBits : ℕ
  lBits : ℕ
  rMask : ℕ
  lMask : ℕ
  keys : RoundKeys

/-- `__L` and `__R`. -/
structure Halves where
  l : ℕ
  r : ℕ
  deriving DecidableEq

namespace FeistelBijection

/-- The constructor with `__from_total_bits_tag`. -/
def fromTotalBits (totalBits : ℕ) (keys : RoundKeys) : FeistelBijection where
  rBits := (totalBits + 1) / 2
  lBits := totalBits / 2
  rMask := 1 <<< ((totalBits + 1) / 2) - 1
  lMask := 1 <<< (totalBits / 2) - 1
  keys := keys

/-- The number of bits for so many elements: `bit_width` of the largest index, and at least 8. -/
def totalBitsOf (numElements : ℕ) : ℕ := max 8 (Nat.size (max 1 numElements - 1))

/-- The constructor with the keys that are drawn. -/
def ofNumElements (numElements : ℕ) (keys : RoundKeys) : FeistelBijection :=
  fromTotalBits (totalBitsOf numElements) keys

/-- `__m0 * __L`. -/
def product (l : ℕ) : ℕ := 0xD2B74407B1CE6E93 * l % 2 ^ 64

variable (b : FeistelBijection)

/-- A round.  A 32-bit number is not shifted by 32 bits. -/
def round (h : Halves) (key : BitVec 32) : Option Halves :=
  let fk := ((product h.l >>> 32) ^^^ key.toNat) % 2 ^ 32
  let bk := product h.l % 2 ^ 32
  if b.lBits < 32 then
    let lPrime := fk ^^^ h.r
    let rPrime := (bk <<< (b.rBits - b.lBits)) % 2 ^ 32 ||| h.r >>> b.lBits
    some ⟨lPrime &&& b.lMask, rPrime &&& b.rMask⟩
  else none

/-- The halves that a number is cut into. -/
def split (val : ℕ) : Halves := ⟨val >>> b.rBits % 2 ^ 32, (val &&& b.rMask) % 2 ^ 32⟩

/-- The left and right sides together. -/
def combine (h : Halves) : ℕ := h.l <<< b.rBits ||| h.r

/-- `operator()`. -/
def apply (val : ℕ) : Option ℕ := (b.keys.toList.foldlM b.round (b.split val)).map b.combine

/-- `size()` is this power of two. -/
def totalBits : ℕ := b.lBits + b.rBits

end FeistelBijection

/-! ## 2. A round -/

namespace FeistelBijection

variable {t : ℕ} {keys : RoundKeys}

/-- The halves of a number with so many bits. -/
def Fits (t : ℕ) (h : Halves) : Prop := h.l < 2 ^ (t / 2) ∧ h.r < 2 ^ ((t + 1) / 2)

theorem rMask_eq : (fromTotalBits t keys).rMask = 2 ^ ((t + 1) / 2) - 1 :=
  congrArg (· - 1) (Nat.one_shiftLeft _)

theorem lMask_eq : (fromTotalBits t keys).lMask = 2 ^ (t / 2) - 1 :=
  congrArg (· - 1) (Nat.one_shiftLeft _)

theorem product_mod {l i : ℕ} (hi : i ≤ 32) :
    product l % 2 ^ 32 % 2 ^ i = 0xD2B74407B1CE6E93 * l % 2 ^ i := by
  have hword : 2 ^ 32 ∣ 2 ^ 64 := Nat.pow_dvd_pow 2 (by decide)
  rw [product, Nat.mod_mod_of_dvd _ hword, Nat.mod_mod_of_dvd _ (Nat.pow_dvd_pow 2 hi)]

/-- **The factor is odd**, so the low bits of the product determine the left half. -/
theorem eq_of_product {l l' i : ℕ} (hl : l < 2 ^ i) (hl' : l' < 2 ^ i)
    (h : 0xD2B74407B1CE6E93 * l % 2 ^ i = 0xD2B74407B1CE6E93 * l' % 2 ^ i) : l = l' := by
  have hodd : Nat.gcd (2 ^ i) 0xD2B74407B1CE6E93 = 1 := Nat.Coprime.pow_left i (by decide)
  have hmod : l ≡ l' [MOD 2 ^ i] := Nat.ModEq.cancel_left_of_coprime hodd h
  exact hmod.eq_of_lt_of_lt hl hl'

theorem top_lt {r : ℕ} (hr : r < 2 ^ ((t + 1) / 2)) : r / 2 ^ (t / 2) < 2 ^ ((t + 1) / 2 - t / 2) := by
  have hsum : (t + 1) / 2 - t / 2 + t / 2 = (t + 1) / 2 := by omega
  rwa [Nat.div_lt_iff_lt_mul (Nat.two_pow_pos _), ← Nat.pow_add, hsum]

theorem round_eq (ht : t ≤ 63) {h : Halves} (hr : h.r < 2 ^ ((t + 1) / 2)) (key : BitVec 32) :
    (fromTotalBits t keys).round h key =
      some ⟨(((product h.l >>> 32) ^^^ key.toNat) % 2 ^ 32 ^^^ h.r) % 2 ^ (t / 2),
        2 ^ ((t + 1) / 2 - t / 2) * (0xD2B74407B1CE6E93 * h.l % 2 ^ (t / 2)) + h.r / 2 ^ (t / 2)⟩ := by
  have hhalf : t / 2 < 32 := by omega
  obtain ⟨d, hd⟩ : ∃ d, (t + 1) / 2 - t / 2 = d := ⟨_, rfl⟩
  have hsum : (t + 1) / 2 = d + t / 2 := by omega
  have hword : d + (32 - d) = 32 := by omega
  have hlow : 2 ^ d * (product h.l % 2 ^ 32) % 2 ^ 32 = 2 ^ d * (product h.l % 2 ^ 32 % 2 ^ (32 - d)) := by
    calc 2 ^ d * (product h.l % 2 ^ 32) % 2 ^ 32
        = 2 ^ d * (product h.l % 2 ^ 32) % (2 ^ d * 2 ^ (32 - d)) := by rw [← Nat.pow_add, hword]
      _ = 2 ^ d * (product h.l % 2 ^ 32 % 2 ^ (32 - d)) := Nat.mul_mod_mul_left _ _ _
  have htop : h.r / 2 ^ (t / 2) < 2 ^ d := hd ▸ top_lt hr
  have hright : (2 ^ d * (product h.l % 2 ^ 32) % 2 ^ 32 ||| h.r / 2 ^ (t / 2)) % 2 ^ ((t + 1) / 2) =
      2 ^ d * (0xD2B74407B1CE6E93 * h.l % 2 ^ (t / 2)) + h.r / 2 ^ (t / 2) := by
    have hcut : 2 ^ (t / 2) ∣ 2 ^ (32 - d) := Nat.pow_dvd_pow 2 (by omega)
    rw [hlow, ← Nat.two_pow_add_eq_or_of_lt htop, hsum, Nat.pow_add, Nat.mod_mul, Nat.mul_add_mod,
      Nat.mod_eq_of_lt htop, Nat.mul_add_div (Nat.two_pow_pos d), Nat.div_eq_of_lt htop, Nat.add_zero,
      Nat.mod_mod_of_dvd _ hcut, product_mod hhalf.le, Nat.add_comm]
  have hguard : (fromTotalBits t keys).lBits < 32 := hhalf
  have hshift : (product h.l % 2 ^ 32) <<< d = 2 ^ d * (product h.l % 2 ^ 32) := by
    rw [Nat.shiftLeft_eq, Nat.mul_comm]
  simp only [round, if_pos hguard, lMask_eq, rMask_eq, Nat.and_two_pow_sub_one_eq_mod]
  refine congrArg some (congrArg (Halves.mk _) ?_)
  change ((product h.l % 2 ^ 32) <<< ((t + 1) / 2 - t / 2) % 2 ^ 32 ||| h.r >>> (t / 2)) % _ = _
  rw [hd, hshift, Nat.shiftRight_eq_div_pow]
  exact hright

variable (keys) in
/-- The masks keep the halves small, whatever the left half was. -/
theorem round_fits (ht : t ≤ 63) {h : Halves} (hr : h.r < 2 ^ ((t + 1) / 2)) (key : BitVec 32) :
    ∃ h', (fromTotalBits t keys).round h key = some h' ∧ Fits t h' := by
  refine ⟨_, round_eq ht hr key, Nat.mod_lt _ (Nat.two_pow_pos _), ?_⟩
  obtain ⟨d, hd⟩ : ∃ d, (t + 1) / 2 - t / 2 = d := ⟨_, rfl⟩
  have hsum : (t + 1) / 2 = d + t / 2 := by omega
  have htop : h.r / 2 ^ (t / 2) < 2 ^ d := hd ▸ top_lt hr
  have hlow : 0xD2B74407B1CE6E93 * h.l % 2 ^ (t / 2) < 2 ^ (t / 2) := Nat.mod_lt _ (Nat.two_pow_pos _)
  calc 2 ^ ((t + 1) / 2 - t / 2) * (0xD2B74407B1CE6E93 * h.l % 2 ^ (t / 2)) + h.r / 2 ^ (t / 2)
      < 2 ^ d * (0xD2B74407B1CE6E93 * h.l % 2 ^ (t / 2)) + 2 ^ d := by
        rw [hd]
        exact Nat.add_lt_add_left htop _
    _ = 2 ^ d * (0xD2B74407B1CE6E93 * h.l % 2 ^ (t / 2) + 1) := (Nat.mul_succ _ _).symm
    _ ≤ 2 ^ d * 2 ^ (t / 2) := Nat.mul_le_mul_left _ hlow
    _ = 2 ^ ((t + 1) / 2) := by rw [← Nat.pow_add, hsum]

/-- **A round loses nothing.** -/
theorem round_injective (ht : t ≤ 63) {h h' : Halves} (hfits : Fits t h) (hfits' : Fits t h') {key : BitVec 32}
    (heq : (fromTotalBits t keys).round h key = (fromTotalBits t keys).round h' key) : h = h' := by
  obtain ⟨hl, hr⟩ := hfits
  obtain ⟨hl', hr'⟩ := hfits'
  rw [round_eq ht hr, round_eq ht hr', Option.some.injEq, Halves.mk.injEq] at heq
  obtain ⟨hxor, hright⟩ := heq
  -- the quotient of the right half shows the product, and the remainder the top bits
  have hquotient := congrArg (· / 2 ^ ((t + 1) / 2 - t / 2)) hright
  have hremainder := congrArg (· % 2 ^ ((t + 1) / 2 - t / 2)) hright
  simp only [Nat.mul_add_div (Nat.two_pow_pos _), Nat.div_eq_of_lt (top_lt hr), Nat.div_eq_of_lt (top_lt hr'),
    Nat.add_zero] at hquotient
  simp only [Nat.mul_add_mod, Nat.mod_eq_of_lt (top_lt hr), Nat.mod_eq_of_lt (top_lt hr')] at hremainder
  have hleft : h.l = h'.l := eq_of_product hl hl' hquotient
  have hlow : h.r % 2 ^ (t / 2) = h'.r % 2 ^ (t / 2) := by
    rw [hleft, Nat.xor_mod_two_pow, Nat.xor_mod_two_pow (b := h'.r)] at hxor
    exact Nat.xor_right_injective hxor
  have hr_eq : h.r = h'.r := by
    rw [← Nat.div_add_mod h.r (2 ^ (t / 2)), ← Nat.div_add_mod h'.r (2 ^ (t / 2)), hremainder, hlow]
  obtain ⟨l, r⟩ := h
  exact congrArg₂ Halves.mk hleft hr_eq

/-! ## 3. All rounds -/

theorem keys_eq_cons (keys : RoundKeys) : ∃ key ks, keys.toList = key :: ks :=
  List.exists_cons_of_length_pos (by rw [Vector.length_toList]; decide)

variable (keys) in
theorem foldlM_fits (ht : t ≤ 63) : ∀ (ks : List (BitVec 32)) {h : Halves}, Fits t h →
    ∃ h', ks.foldlM (fromTotalBits t keys).round h = some h' ∧ Fits t h'
  | [], h, hfits => ⟨h, rfl, hfits⟩
  | key :: ks, h, hfits => by
    obtain ⟨h', hround, hfits'⟩ := round_fits keys ht hfits.2 key
    rw [List.foldlM_cons, hround]
    exact foldlM_fits ht ks hfits'

theorem foldlM_injective (ht : t ≤ 63) : ∀ {ks : List (BitVec 32)} {h h' g : Halves}, Fits t h → Fits t h' →
    ks.foldlM (fromTotalBits t keys).round h = some g →
      ks.foldlM (fromTotalBits t keys).round h' = some g → h = h'
  | [], h, h', g, _, _, heq, heq' => Option.some.inj (heq.trans heq'.symm)
  | key :: ks, h, h', g, hfits, hfits', heq, heq' => by
    obtain ⟨n, hround, hn⟩ := round_fits keys ht hfits.2 key
    obtain ⟨n', hround', hn'⟩ := round_fits keys ht hfits'.2 key
    rw [List.foldlM_cons, hround] at heq
    rw [List.foldlM_cons, hround'] at heq'
    have hsame : n = n' := foldlM_injective ht hn hn' heq heq'
    exact round_injective ht hfits hfits' (hround.trans ((congrArg some hsame).trans hround'.symm))

theorem combine_eq {h : Halves} (hr : h.r < 2 ^ ((t + 1) / 2)) :
    (fromTotalBits t keys).combine h = 2 ^ ((t + 1) / 2) * h.l + h.r := by
  rw [Nat.two_pow_add_eq_or_of_lt hr, Nat.mul_comm, ← Nat.shiftLeft_eq]
  rfl

variable (keys) in
theorem combine_lt {h : Halves} (hfits : Fits t h) : (fromTotalBits t keys).combine h < 2 ^ t := by
  obtain ⟨hl, hr⟩ := hfits
  have hsum : t = (t + 1) / 2 + t / 2 := by omega
  rw [combine_eq hr]
  calc 2 ^ ((t + 1) / 2) * h.l + h.r < 2 ^ ((t + 1) / 2) * h.l + 2 ^ ((t + 1) / 2) := Nat.add_lt_add_left hr _
    _ = 2 ^ ((t + 1) / 2) * (h.l + 1) := (Nat.mul_succ _ _).symm
    _ ≤ 2 ^ ((t + 1) / 2) * 2 ^ (t / 2) := Nat.mul_le_mul_left _ hl
    _ = 2 ^ t := by rw [← Nat.pow_add, ← hsum]

theorem combine_injective {h h' : Halves} (hfits : Fits t h) (hfits' : Fits t h')
    (heq : (fromTotalBits t keys).combine h = (fromTotalBits t keys).combine h') : h = h' := by
  rw [combine_eq hfits.2, combine_eq hfits'.2] at heq
  have hquotient := congrArg (· / 2 ^ ((t + 1) / 2)) heq
  have hremainder := congrArg (· % 2 ^ ((t + 1) / 2)) heq
  simp only [Nat.mul_add_div (Nat.two_pow_pos _), Nat.div_eq_of_lt hfits.2, Nat.div_eq_of_lt hfits'.2,
    Nat.add_zero] at hquotient
  simp only [Nat.mul_add_mod, Nat.mod_eq_of_lt hfits.2, Nat.mod_eq_of_lt hfits'.2] at hremainder
  obtain ⟨l, r⟩ := h
  exact congrArg₂ Halves.mk hquotient hremainder

theorem split_eq (ht : t ≤ 63) (val : ℕ) :
    (fromTotalBits t keys).split val = ⟨val / 2 ^ ((t + 1) / 2) % 2 ^ 32, val % 2 ^ ((t + 1) / 2)⟩ := by
  have hhalf : 2 ^ ((t + 1) / 2) ≤ 2 ^ 32 := Nat.pow_le_pow_right (by decide) (by omega)
  have hlt : val % 2 ^ ((t + 1) / 2) < 2 ^ ((t + 1) / 2) := Nat.mod_lt _ (Nat.two_pow_pos _)
  rw [split, rMask_eq, Nat.and_two_pow_sub_one_eq_mod, Nat.mod_eq_of_lt (hlt.trans_le hhalf),
    Nat.shiftRight_eq_div_pow]
  rfl

variable (keys) in
theorem split_fits (ht : t ≤ 63) {val : ℕ} (hval : val < 2 ^ t) : Fits t ((fromTotalBits t keys).split val) := by
  have hsum : t = t / 2 + (t + 1) / 2 := by omega
  rw [split_eq ht]
  refine ⟨(Nat.mod_le _ _).trans_lt ?_, Nat.mod_lt _ (Nat.two_pow_pos _)⟩
  rw [Nat.div_lt_iff_lt_mul (Nat.two_pow_pos _), ← Nat.pow_add, ← hsum]
  exact hval

variable (keys) in
theorem combine_split (ht : t ≤ 63) {val : ℕ} (hval : val < 2 ^ t) :
    (fromTotalBits t keys).combine ((fromTotalBits t keys).split val) = val := by
  have hfits := split_fits keys ht hval
  have hlow : val / 2 ^ ((t + 1) / 2) % 2 ^ 32 = val / 2 ^ ((t + 1) / 2) := by
    have hsum : t = t / 2 + (t + 1) / 2 := by omega
    have hhalf : 2 ^ (t / 2) ≤ 2 ^ 32 := Nat.pow_le_pow_right (by decide) (by omega)
    have hlt : val / 2 ^ ((t + 1) / 2) < 2 ^ (t / 2) := by
      rw [Nat.div_lt_iff_lt_mul (Nat.two_pow_pos _), ← Nat.pow_add, ← hsum]
      exact hval
    exact Nat.mod_eq_of_lt (hlt.trans_le hhalf)
  rw [combine_eq hfits.2, split_eq ht, hlow, Nat.div_add_mod]

theorem apply_fits (ht : t ≤ 63) {val : ℕ} (hval : val < 2 ^ t) :
    ∃ w < 2 ^ t, (fromTotalBits t keys).apply val = some w := by
  obtain ⟨h', hfold, hfits'⟩ := foldlM_fits keys ht keys.toList (split_fits keys ht hval)
  refine ⟨_, combine_lt keys hfits', ?_⟩
  exact congrArg (Option.map _) hfold

variable (keys) in
/-- **The rounds are a permutation** of the numbers of up to 63 bits. -/
theorem bijects (ht : t ≤ 63) :
    Bijects (2 ^ t) fun v w => (fromTotalBits t keys).apply v = some w := by
  refine bijects_of_injective (fun v hv => apply_fits ht hv) fun v hv v' hv' w heq heq' => ?_
  have hsplit := split_fits keys ht hv
  have hsplit' := split_fits keys ht hv'
  obtain ⟨h, hfold, hfits⟩ := foldlM_fits keys ht keys.toList hsplit
  obtain ⟨h', hfold', hfits'⟩ := foldlM_fits keys ht keys.toList hsplit'
  have hcombine : (fromTotalBits t keys).combine h = w :=
    Option.some.inj ((congrArg (Option.map _) hfold).symm.trans heq)
  have hcombine' : (fromTotalBits t keys).combine h' = w :=
    Option.some.inj ((congrArg (Option.map _) hfold').symm.trans heq')
  have hsame : h = h' := combine_injective hfits hfits' (hcombine.trans hcombine'.symm)
  have hstart := foldlM_injective ht hsplit hsplit' hfold (hsame ▸ hfold')
  rw [← combine_split keys ht hv, hstart, combine_split keys ht hv']

/-- A value that has too many bits is mapped to one that has not. -/
theorem apply_lt (ht : t ≤ 63) {val w : ℕ} (h : (fromTotalBits t keys).apply val = some w) : w < 2 ^ t := by
  obtain ⟨key, ks, hkeys⟩ := keys_eq_cons keys
  have hr : ((fromTotalBits t keys).split val).r < 2 ^ ((t + 1) / 2) := by
    rw [split_eq ht]
    exact Nat.mod_lt _ (Nat.two_pow_pos _)
  obtain ⟨h₁, hround, hfits₁⟩ := round_fits keys ht hr key
  obtain ⟨h₂, hfold, hfits₂⟩ := foldlM_fits keys ht ks hfits₁
  have hall : keys.toList.foldlM (fromTotalBits t keys).round ((fromTotalBits t keys).split val) = some h₂ := by
    rw [hkeys, List.foldlM_cons, hround]
    exact hfold
  have hw : (fromTotalBits t keys).combine h₂ = w :=
    Option.some.inj ((congrArg (Option.map _) hall).symm.trans h)
  exact hw ▸ combine_lt keys hfits₂

/-- **With 64 bits no value is mapped.** -/
theorem apply_of_wide (ht : 64 ≤ t) (val : ℕ) : (fromTotalBits t keys).apply val = none := by
  obtain ⟨key, ks, hkeys⟩ := keys_eq_cons keys
  have hguard : ¬ (fromTotalBits t keys).lBits < 32 := by
    change ¬ t / 2 < 32
    omega
  have hround : ∀ h, (fromTotalBits t keys).round h key = none := fun h => if_neg hguard
  have hfold : keys.toList.foldlM (fromTotalBits t keys).round ((fromTotalBits t keys).split val) = none := by
    rw [hkeys, List.foldlM_cons, hround]
    rfl
  exact congrArg (Option.map _) hfold

end FeistelBijection

end Cccl.Random
