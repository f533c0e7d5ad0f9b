/-
# The product of two words

`__mulhilo` of `philox_engine` is the higher and the lower word of a product.  Words of 32 and of 64 bits have it from
`mul_hi`.  All others have it from the products of halves (`__mulhilo_fallback`), which add up to the product above twice
the half (`mulhiloFallback_eq`).  The carry of the lowest products is recovered by a comparison of the lower word with the
middle products, but the lower word is not masked there: bits that the result type has behind the word hide the carry.
And words of an odd size are not twice their half.

So the product is exact if and only if no carry is hidden, or, for an odd size, in the few cases where both words happen
to be right (`mulhilo_eq_iff`).
-/
import Cccl.Random.Philox

namespace Cccl.Random

namespace PhiloxEngine

variable (P : PhiloxParameters)

/-! ## 1. The product -/

/-- `__mulhilo`, where a product of narrow words is one of `int`: it is undefined if it is too large. -/
def mulhiloDefined (a b : ℕ) : Option (ℕ × ℕ) :=
  if P.digits < 32 ∧ 2 ^ 31 ≤ a * b then none else some (mulhilo P a b)

/-- The products below the higher one carry. -/
def LowCarry (half a b : ℕ) : Prop :=
  2 ^ half ≤ a % 2 ^ half * (b % 2 ^ half) / 2 ^ half +
    (a / 2 ^ half * (b % 2 ^ half) + a % 2 ^ half * (b / 2 ^ half)) % 2 ^ half

instance (half a b : ℕ) : Decidable (LowCarry half a b) := inferInstanceAs (Decidable (_ ≤ _))

/-- Words that are multiplied exactly: by `mul_hi`; or no carry is hidden by bits behind the word; or the size is odd and
the product is small. -/
def ExactWords (a b : ℕ) : Prop :=
  P.wordSize = 32 ∨ P.wordSize = 64 ∨
    P.wordSize % 2 = 0 ∧ ¬(LowCarry (P.wordSize / 2) a b ∧ 2 ^ P.wordSize ≤ a * b % 2 ^ P.digits) ∨
    P.wordSize % 2 = 1 ∧ (a * b < 2 ^ (P.wordSize - 1) ∨
      LowCarry (P.wordSize / 2) a b ∧ a * b < 3 * 2 ^ (P.wordSize - 1))

instance (a b : ℕ) : Decidable (ExactWords P a b) := inferInstanceAs (Decidable (_ ∨ _))

/-! ## 2. Products of halves -/

section Halves

variable {B a b : ℕ}

theorem middle_carry (x y B : ℕ) (hB : 0 < B) : x / B + y / B + (x % B + y % B) / B = (x + y) / B := by
  have hsum : x + y = x % B + y % B + B * (x / B + y / B) := by
    have hx := Nat.mod_add_div x B
    have hy := Nat.mod_add_div y B
    rw [Nat.mul_add]
    omega
  rw [hsum, Nat.add_mul_div_left _ _ hB, Nat.add_comm]

/-- The product of two words from the products of their halves. -/
theorem product_halves (a b B : ℕ) : a * b =
    a % B * (b % B) + B * (a / B * (b % B) + a % B * (b / B) + B * (a / B * (b / B))) := by
  conv_lhs => rw [← Nat.mod_add_div a B, ← Nat.mod_add_div b B]
  ring

theorem product_div (hB : 0 < B) : a * b / B =
    a % B * (b % B) / B + (a / B * (b % B) + a % B * (b / B)) + B * (a / B * (b / B)) := by
  rw [product_halves a b B, Nat.add_mul_div_left _ _ hB]
  simp only [Nat.add_assoc]

/-- **A product without both lower halves**: the products above them, with all carries. -/
theorem product_div_sq {low : ℕ} (hB : 0 < B) (hlow : low = a % B * (b % B) / B) : a * b / (B * B) =
    a / B * (b / B) + (a / B * (b % B) + a % B * (b / B)) / B +
      (low + (a / B * (b % B) + a % B * (b / B)) % B) / B := by
  have hmod := Nat.mod_add_div (a / B * (b % B) + a % B * (b / B)) B
  rw [← Nat.div_div_eq_div_mul, product_div hB, ← hlow, Nat.add_mul_div_left _ _ hB]
  generalize a / B * (b % B) + a % B * (b / B) = middle at hmod ⊢
  have hsplit : low + middle = low + middle % B + B * (middle / B) := by omega
  rw [hsplit, Nat.add_mul_div_left _ _ hB]
  omega

end Halves

/-- The comparison of the lower word with the middle products, if there are no bits behind. -/
theorem compare_iff {B low middle lo p : ℕ} (hlow : low < B) (hmiddle : middle < B) (hlo : lo % B = (low + middle) % B)
    (hp : lo < B ↔ p < B * B) : lo < middle ↔ B ≤ low + middle ∧ p < B * B := by
  rw [← hp]
  constructor
  · intro hless
    have hsmall : lo < B := hless.trans hmiddle
    rw [Nat.mod_eq_of_lt hsmall] at hlo
    refine ⟨Nat.not_lt.mp fun hno => ?_, hsmall⟩
    rw [Nat.mod_eq_of_lt hno] at hlo
    omega
  · rintro ⟨hcarry, hsmall⟩
    rw [Nat.mod_eq_of_lt hsmall, Nat.mod_eq_sub_mod hcarry, Nat.mod_eq_of_lt (by omega)] at hlo
    omega

variable {P}

theorem digits_bounds (P : PhiloxParameters) : 8 ≤ P.digits ∧ P.digits % 2 = 0 := by
  have := P.supported
  omega

/-- **The product by halves**: a carry that bits behind the lower halves hide is lost. -/
theorem mulhiloFallback_eq {a b h : ℕ} (hh : h = P.wordSize / 2) (ha : a < 2 ^ P.wordSize) (hb : b < 2 ^ P.wordSize) :
    mulhiloFallback P a b =
      ((a * b / 2 ^ (2 * h) -
          if LowCarry h a b ∧ 2 ^ (2 * h) ≤ a * b % 2 ^ P.digits then 1 else 0) % 2 ^ P.wordSize,
        a * b % 2 ^ P.wordSize) := by
  obtain ⟨hdigits, heven⟩ := digits_bounds P
  have hle := P.wordSize_le
  have hhalf : 2 * h ≤ P.digits := by omega
  have hsquare : 2 ^ (2 * h) = 2 ^ h * 2 ^ h := by rw [Nat.two_mul, Nat.pow_add]
  obtain ⟨rest, hrest⟩ : ∃ rest, 2 ^ P.digits = 2 ^ h * (2 ^ h * rest) :=
    ⟨2 ^ (P.digits - 2 * h), by rw [← Nat.mul_assoc, ← hsquare, ← Nat.pow_add, Nat.add_sub_cancel' hhalf]⟩
  have hword : 2 ^ P.wordSize ∣ 2 ^ P.digits := Nat.pow_dvd_pow 2 hle
  -- no product or sum in between is too large for the result type
  have hupper : ∀ {x}, x < 2 ^ P.wordSize → x / 2 ^ h < 2 ^ (P.wordSize - h) := fun {x} hx => by
    refine Nat.div_lt_of_lt_mul ?_
    rwa [← Nat.pow_add, Nat.add_sub_cancel' (by omega)]
  have hproduct : ∀ {x y}, x < 2 ^ P.wordSize → x / 2 ^ h * (y % 2 ^ h) < 2 ^ P.digits := fun {x y} hx => by
    refine (Nat.mul_lt_mul'' (hupper hx) (Nat.mod_lt y (Nat.two_pow_pos h))).trans_le ?_
    rw [← Nat.pow_add]
    exact Nat.pow_le_pow_right (by decide) (by omega)
  have hhigher : a * b / (2 ^ h * 2 ^ h) < 2 ^ P.digits := by
    refine Nat.div_lt_of_lt_mul ((Nat.mul_lt_mul'' ha hb).trans_le ?_)
    rw [← hsquare, ← Nat.pow_add, ← Nat.pow_add]
    exact Nat.pow_le_pow_right (by decide) (by omega)
  have hcrossLt : 2 ^ h * 2 ≤ 2 ^ P.digits := by
    rw [← Nat.pow_succ]
    exact Nat.pow_le_pow_right (by decide) (by omega)
  have hfirst := hproduct ha (y := b)
  have hsecond := hproduct hb (y := a)
  rw [Nat.mul_comm] at hsecond
  simp only [mulhiloFallback, word, LowCarry, ← hh, Nat.one_shiftLeft, Nat.shiftRight_eq_div_pow,
    Nat.and_two_pow_sub_one_eq_mod, Nat.mod_eq_of_lt hfirst, Nat.mod_eq_of_lt hsecond, hsquare,
    Nat.mod_mod_of_dvd _ hword]
  obtain ⟨B, hB⟩ : ∃ B, B = 2 ^ h := ⟨_, rfl⟩
  have hpos : 0 < B := hB ▸ Nat.two_pow_pos h
  rw [← hB] at hrest hhigher hcrossLt ⊢
  have hhigher' := product_div_sq (a := a) (b := b) hpos rfl
  have hmiddle := middle_carry (a / B * (b % B)) (a % B * (b / B)) B hpos
  have hcross : (a / B * (b % B) % B + a % B * (b / B) % B) % B = (a / B * (b % B) + a % B * (b / B)) % B :=
    (Nat.add_mod _ _ _).symm
  have hx := Nat.mod_lt (a / B * (b % B)) hpos
  have hy := Nat.mod_lt (a % B * (b / B)) hpos
  rw [Nat.mod_eq_of_lt (a := a / B * (b % B) % B + a % B * (b / B) % B) (by omega), hcross]
  have hlowLt : a % B * (b % B) / B < B :=
    Nat.div_lt_of_lt_mul (Nat.mul_lt_mul'' (Nat.mod_lt a hpos) (Nat.mod_lt b hpos))
  have hmiddleLt := Nat.mod_lt (a / B * (b % B) + a % B * (b / B)) hpos
  -- the lower word without its lower half
  have hlo : a * b % 2 ^ P.digits / B % B =
      (a % B * (b % B) / B + (a / B * (b % B) + a % B * (b / B)) % B) % B := by
    rw [hrest, Nat.mod_mul_right_div_self, Nat.mod_mod_of_dvd _ ⟨rest, rfl⟩, product_div hpos, Nat.add_mul_mod_self_left,
      Nat.add_mod_mod]
  have hcompare := compare_iff hlowLt hmiddleLt hlo (Nat.div_lt_iff_lt_mul hpos)
  have hsum : a / B * (b / B) + a / B * (b % B) / B + a % B * (b / B) / B +
      (a / B * (b % B) % B + a % B * (b / B) % B) / B =
        a / B * (b / B) + (a / B * (b % B) + a % B * (b / B)) / B := by omega
  have hnowrap : a / B * (b / B) + (a / B * (b % B) + a % B * (b / B)) / B < 2 ^ P.digits :=
    (Nat.le_add_right _ _).trans_lt (hhigher' ▸ hhigher)
  have htwice : a % B * (b % B) / B + (a / B * (b % B) + a % B * (b / B)) % B < 2 * B := by
    rw [Nat.two_mul]
    exact Nat.add_lt_add hlowLt hmiddleLt
  rw [Nat.mod_add_mod, hsum, Nat.mod_eq_of_lt hnowrap, if_congr hcompare rfl rfl, hhigher']
  generalize a % B * (b % B) / B + (a / B * (b % B) + a % B * (b / B)) % B = carry at htwice
  generalize a / B * (b / B) + (a / B * (b % B) + a % B * (b / B)) / B = upper
  refine congrArg (fun hi => (hi % 2 ^ P.wordSize, a * b % 2 ^ P.wordSize)) ?_
  rcases Nat.lt_or_ge carry B with hnone | hcarry
  · rw [Nat.div_eq_of_lt hnone, if_neg fun h => absurd h.1 (Nat.not_le.mpr hnone),
      if_neg fun h => absurd h.1 (Nat.not_le.mpr hnone)]
    rfl
  · rw [Nat.div_eq_of_lt_le (k := 1) (by omega) (by omega)]
    rcases Nat.lt_or_ge (a * b % 2 ^ P.digits) (B * B) with hclear | hhidden
    · rw [if_pos ⟨hcarry, hclear⟩, if_neg fun h => absurd h.2 (Nat.not_le.mpr hclear)]
      rfl
    · rw [if_neg fun h => absurd h.2 (Nat.not_lt.mpr hhidden), if_pos ⟨hcarry, hhidden⟩]
      rfl

/-! ## 3. When it is exact -/

/-- A carry is only there if the product is not below the square of the halves' bound. -/
theorem LowCarry.le {h a b : ℕ} (hcarry : LowCarry h a b) : 1 ≤ a * b / 2 ^ (2 * h) := by
  have hpos := Nat.two_pow_pos h
  rw [Nat.two_mul, Nat.pow_add, product_div_sq hpos rfl]
  exact (Nat.div_pos hcarry hpos).trans_le (Nat.le_add_left _ _)

/-- Words of an even size: the higher word is the product above both halves. -/
theorem even_exact_iff {q : ℕ} {lost : Prop} [Decidable lost] {W : ℕ} (hq : q < W) (hlost : lost → 1 ≤ q) :
    (q - if lost then 1 else 0) % W = q ↔ ¬ lost := by
  by_cases h : lost
  · have hpos := hlost h
    rw [if_pos h, Nat.mod_eq_of_lt (by omega)]
    exact iff_of_false (by omega) (not_not.mpr h)
  · rw [if_neg h, Nat.sub_zero, Nat.mod_eq_of_lt hq]
    exact iff_of_true rfl h

theorem odd_exact_iff {q W : ℕ} {carry lost : Prop} [Decidable lost]
    (hq : q + 4 ≤ 2 * W ∨ W = 2 ∧ q ≤ 1 ∧ ¬ carry) (hlost : lost → carry) (hcarry : carry → 1 ≤ q)
    (hsmall : q < 3 → carry → lost) :
    (q - if lost then 1 else 0) % W = q / 2 ↔ q = 0 ∨ carry ∧ q < 3 := by
  by_cases h : lost
  · have hpos := hcarry (hlost h)
    have hbound : q + 4 ≤ 2 * W := hq.resolve_right fun hone => hone.2.2 (hlost h)
    rw [if_pos h, and_iff_right (hlost h)]
    rcases Nat.lt_or_ge (q - 1) W with hless | hmore
    · rw [Nat.mod_eq_of_lt hless]
      omega
    · rw [Nat.mod_eq_sub_mod hmore, Nat.mod_eq_of_lt (by omega)]
      omega
  · have hno : ¬(carry ∧ q < 3) := fun hboth => h (hsmall hboth.2 hboth.1)
    rw [if_neg h, or_iff_left hno, Nat.sub_zero]
    rcases hq with hbound | ⟨rfl, hone, -⟩
    · rcases Nat.lt_or_ge q W with hless | hmore
      · rw [Nat.mod_eq_of_lt hless]
        omega
      · rw [Nat.mod_eq_sub_mod hmore, Nat.mod_eq_of_lt (by omega)]
        omega
    · rw [Nat.mod_eq_of_lt (by omega)]
      omega

theorem odd_product_le {h a b : ℕ} (ha : a < 2 ^ (2 * h + 1)) (hb : b < 2 ^ (2 * h + 1)) :
    a * b / 2 ^ (2 * h) + 4 ≤ 2 * 2 ^ (2 * h + 1) ∨
      2 ^ (2 * h + 1) = 2 ∧ a * b / 2 ^ (2 * h) ≤ 1 ∧ ¬ LowCarry h a b := by
  obtain ⟨S, hS⟩ : ∃ S, S = 2 ^ (2 * h) := ⟨_, rfl⟩
  have hW : 2 ^ (2 * h + 1) = 2 * S := by rw [Nat.pow_succ, hS, Nat.mul_comm]
  rw [hW] at ha hb ⊢
  have hle : a * b ≤ (2 * S - 1) * (2 * S - 1) := Nat.mul_le_mul (by omega) (by omega)
  rcases Nat.eq_zero_or_pos h with rfl | hpos
  · obtain rfl : S = 1 := hS
    refine Or.inr ⟨rfl, ?_, fun hcarry => ?_⟩
    · rw [Nat.mul_zero, Nat.pow_zero, Nat.div_one]
      exact hle
    · rw [LowCarry, Nat.pow_zero, Nat.mod_one, Nat.mod_one, Nat.mod_one] at hcarry
      exact absurd hcarry (by decide)
  · left
    have hfour : 4 ≤ S := by
      rw [hS]
      exact Nat.pow_le_pow_right (n := 2) (i := 2) (by decide) (by omega)
    rw [← hS]
    obtain ⟨t, rfl⟩ := Nat.exists_eq_add_of_le hfour
    have hsquare : (2 * (4 + t) - 1) * (2 * (4 + t) - 1) < (4 + t) * (4 * (4 + t) - 3) := by
      have h1 : 2 * (4 + t) - 1 = 2 * t + 7 := by omega
      have h2 : 4 * (4 + t) - 3 = 4 * t + 13 := by omega
      rw [h1, h2]
      ring_nf
      omega
    have hdiv := Nat.div_lt_of_lt_mul (hle.trans_lt hsquare)
    omega

/-- **The product of two words is exact** if and only if its carry is not hidden, or the size of the words is odd and
the product small; and it is defined. -/
theorem mulhilo_eq_iff (P : PhiloxParameters) (a b : ℕ) (ha : a < 2 ^ P.wordSize) (hb : b < 2 ^ P.wordSize) :
    mulhiloDefined P a b = some (a * b / 2 ^ P.wordSize, a * b % 2 ^ P.wordSize) ↔
      (P.digits < 32 → a * b < 2 ^ 31) ∧ ExactWords P a b := by
  have hle := P.wordSize_le
  obtain ⟨-, heven⟩ := digits_bounds P
  have hdefined : ∀ p, mulhiloDefined P a b = some p ↔ (P.digits < 32 → a * b < 2 ^ 31) ∧ mulhilo P a b = p := by
    intro p
    rw [mulhiloDefined]
    split
    · rename_i hnarrow
      exact iff_of_false (Option.some_ne_none _).symm fun h => absurd (h.1 hnarrow.1) (Nat.not_lt.mpr hnarrow.2)
    · rename_i hwide
      rw [Option.some.injEq]
      exact ⟨fun h => ⟨fun hdigits => Nat.not_le.mp fun hlarge => hwide ⟨hdigits, hlarge⟩, h⟩, fun h => h.2⟩
  rw [hdefined]
  refine and_congr_right fun _ => ?_
  unfold mulhilo ExactWords
  split
  · rename_i hsize
    have hword : 2 ^ P.wordSize ∣ 2 ^ P.digits := Nat.pow_dvd_pow 2 hle
    rw [Nat.mod_eq_of_lt ha, Nat.mod_eq_of_lt hb, Cmath.mulHi_eq P.hasInt128 (by omega) ha hb, word,
      Nat.mod_mod_of_dvd _ hword]
    exact iff_of_true rfl (hsize.elim Or.inl fun h => Or.inr (Or.inl h))
  · rename_i hsize
    obtain ⟨h32, h64⟩ := not_or.mp hsize
    rw [mulhiloFallback_eq rfl ha hb, Prod.mk.injEq, and_iff_left rfl, or_iff_right h32, or_iff_right h64]
    obtain ⟨h, hh⟩ : ∃ h, h = P.wordSize / 2 := ⟨_, rfl⟩
    rw [← hh]
    rcases Nat.mod_two_eq_zero_or_one P.wordSize with hparity | hparity
    · have hsize : P.wordSize = 2 * h := by omega
      rw [hparity, and_iff_right rfl, or_iff_left fun hodd => absurd hodd.1 (by decide)]
      rw [hsize] at ha hb ⊢
      exact even_exact_iff (Nat.div_lt_of_lt_mul (Nat.mul_lt_mul'' ha hb)) fun hlost => hlost.1.le
    · have hsize : P.wordSize = 2 * h + 1 := by omega
      rw [hparity, and_iff_right rfl, or_iff_right fun heven => absurd heven.1 (by decide)]
      rw [hsize] at ha hb ⊢
      have hpow := Nat.two_pow_pos (2 * h)
      have hhalf : a * b / 2 ^ (2 * h + 1) = a * b / 2 ^ (2 * h) / 2 := by rw [Nat.pow_succ, Nat.div_div_eq_div_mul]
      rw [hhalf, odd_exact_iff (odd_product_le ha hb) And.left LowCarry.le fun hsmall hcarry => ⟨hcarry, ?_⟩,
        Nat.add_sub_cancel, Nat.div_eq_zero_iff, Nat.div_lt_iff_lt_mul hpow]
      · rw [or_iff_right hpow.ne']
      · have hless := (Nat.div_lt_iff_lt_mul hpow).mp hsmall
        have hquarter : 4 * 2 ^ (2 * h) ≤ 2 ^ P.digits := by
          rw [Nat.mul_comm, ← Nat.pow_add _ _ 2]
          exact Nat.pow_le_pow_right (by decide) (by omega)
        rw [Nat.mod_eq_of_lt (by omega)]
        have hone := hcarry.le
        rwa [Nat.le_div_iff_mul_le hpow, Nat.one_mul] at hone

/-- Words of 16 bits in a result type of 32. -/
def words16 : PhiloxParameters where
  digits := 32
  wordSize := 16
  wordCount := 2
  roundCount := 10
  constants := [0xD256, 0x9E37]
  hasInt128 := true
  supported := philox4x16.supported
  wordCount_eq := by decide
  length_constants := rfl
  roundCount_pos := philox4x16.roundCount_pos
  wordSize_pos := philox4x16.wordSize_pos
  wordSize_le := philox4x16.wordSize_le

/-- Without bits behind the word, nothing is hidden. -/
theorem mulhilo_small_words : mulhiloDefined words16 0xFF 0xFF = some (0, 0xFE01) :=
  (mulhilo_eq_iff words16 0xFF 0xFF (by decide) (by decide)).mpr (by decide)

/-- The largest words of 16 bits: the carry of their product is hidden. -/
theorem mulhilo_lost_carry : mulhiloDefined words16 0xFFFF 0xFFFF = some (0xFFFD, 1) ∧
    (0xFFFF * 0xFFFF / 2 ^ 16, 0xFFFF * 0xFFFF % 2 ^ 16) = (0xFFFE, 1) := by
  decide

end PhiloxEngine

end Cccl.Random
