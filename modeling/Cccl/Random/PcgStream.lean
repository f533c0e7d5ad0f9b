/-
# `pcg64` in a stream

The state is written as two decimal numbers with a blank behind each, the lower word first, and read back in
the same order.  A field width that the stream still has only adds blanks behind the first number
(`OStream.put`), since the numbers are aligned to the left; so what was written is always read again
(`read_write`).

For both types of 128 bits, `discard` is as many calls of `operator()`, and a written engine is restored
(`jumpsAndStreams`).
-/
import Cccl.Charconv.ToChars
import Cccl.Random.PcgExact

namespace Cccl.Random

open Charconv Numeral Cmath

/-! ## 1. Streams -/

/-- An output stream: the characters so far, and the width of the next field. -/
structure OStream where
  text : List ℤ
  width : ℕ

/-- `__os << field` with the flag `left` and blanks as fill characters.  The width is for one field only. -/
def OStream.put (os : OStream) (field : List ℤ) : OStream :=
  ⟨os.text ++ field ++ List.replicate (os.width - field.length) 32, 0⟩

def isSpace (c : ℤ) : Bool := c == 32 || decide (9 ≤ c ∧ c ≤ 13)

/-- A sign in front of a number, if there is one. -/
def splitSign : List ℤ → Bool × List ℤ
  | 45 :: cs => (true, cs)
  | 43 :: cs => (false, cs)
  | cs => (false, cs)

/-- `__is >> word` with the flags `dec` and `skipws`.  There is none if the stream fails. -/
def getWord (is : List ℤ) : Option (BitVec 64 × List ℤ) :=
  let signed := splitSign (is.dropWhile isSpace)
  let ds := leadingDigits 10 signed.2
  if ds = [] ∨ 2 ^ 64 ≤ value 10 ds then none
  else
    let word := BitVec.ofNat 64 (value 10 ds)
    some (if signed.1 then -word else word, signed.2.drop ds.length)

section Engine

variable {W : Type} [Uint128 W]

/-- `operator<<`. -/
def write (os : OStream) (x : W) : OStream :=
  let low := Uint128.toWord x
  let hi := Uint128.toWord (Uint128.shiftRight x 64)
  (((os.put (magnitude 10 low.toNat)).put [32]).put (magnitude 10 hi.toNat)).put [32]

/-- `operator>>`. -/
def read (is : List ℤ) : Option (W × List ℤ) :=
  (getWord is).bind fun low =>
    (getWord low.2).map fun hi => (ofWords hi.1 low.1, hi.2)

end Engine

/-! ## 2. Numbers -/

theorem not_isDigit_space (d : ℕ) : ¬ IsDigit 10 32 d := by
  unfold IsDigit
  omega

theorem magnitude_eq_cons (v : ℕ) : ∃ c cs, magnitude 10 v = c :: cs ∧ 48 ≤ c ∧ c ≤ 57 := by
  obtain ⟨d, ds, hds⟩ := List.exists_cons_of_ne_nil (@digits_ne_nil 10 v)
  have hd : d < 10 := digits_lt (by decide) (hds ▸ List.mem_cons_self)
  refine ⟨valueToChar 10 d, ds.map (valueToChar 10), by rw [magnitude, hds, List.map_cons], ?_⟩
  rw [valueToChar, if_pos (.inr hd)]
  omega

theorem getWord_magnitude (blanks : ℕ) (w : BitVec 64) (rest : List ℤ) :
    getWord (List.replicate blanks 32 ++ (magnitude 10 w.toNat ++ 32 :: rest)) = some (w, 32 :: rest) := by
  have hread : leadingDigits 10 (magnitude 10 w.toNat ++ 32 :: rest) = digits 10 w.toNat := by
    refine leadingDigits_magnitude (by decide) (by decide) _ fun c hc => ?_
    obtain rfl : 32 = c := by simpa using hc
    exact not_isDigit_space
  obtain ⟨c, cs, hcons, hlow, hhigh⟩ := magnitude_eq_cons w.toNat
  have hskip : (List.replicate blanks 32 ++ (magnitude 10 w.toNat ++ 32 :: rest)).dropWhile isSpace =
      magnitude 10 w.toNat ++ 32 :: rest := by
    have hblank : ∀ c ∈ List.replicate blanks (32 : ℤ), isSpace c = true := fun c hc => by
      rw [List.eq_of_mem_replicate hc]
      rfl
    have hstop : ¬ isSpace c = true := by
      simp only [isSpace, Bool.or_eq_true, beq_iff_eq, decide_eq_true_eq]
      omega
    rw [List.dropWhile_append_of_pos hblank, hcons, List.cons_append, List.dropWhile_cons_of_neg hstop]
  have hsign : splitSign (magnitude 10 w.toNat ++ 32 :: rest) =
      (false, magnitude 10 w.toNat ++ 32 :: rest) := by
    rw [hcons, List.cons_append, splitSign]
    all_goals
      intro cs' heq
      obtain ⟨rfl, -⟩ := List.cons.inj heq
      omega
  have hlt := w.isLt
  rw [getWord, hskip, hsign]
  dsimp only
  rw [hread, value_digits, if_neg (not_or.mpr ⟨digits_ne_nil _, by omega⟩), ← length_magnitude,
    List.drop_left, BitVec.ofNat_toNat, BitVec.setWidth_eq]
  rfl

/-! ## 3. Engines -/

/-- What a stream has got, and what comes out of it. -/
structure JumpsAndStreams (W : Type) [Uint128 W] (P : PcgConstants) : Prop where
  /-- `discard` is as many calls. -/
  discard_eq : ∀ (z : BitVec 64) (x : W), discard P z x = some (outputs P z.toNat x).2
  /-- Two jumps are one, unless their sum is too large. -/
  discard_add : ∀ (a b : BitVec 64) (x : W), a.toNat + b.toNat < 2 ^ 64 →
    (discard P a x).bind (discard P b) = discard P (a + b) x
  /-- What was written behind some text is read, whatever comes next. -/
  restored : ∀ (os : OStream) (x : W), ∃ text, (write os x).text = os.text ++ text ∧
    ∀ tail, ∃ y rest, read (text ++ tail) = some (y, rest) ∧ Uint128.eq y x = true

theorem write_text {W : Type} [Uint128 W] (os : OStream) (x : W) : ∃ blanks, (write os x).text =
    os.text ++ (magnitude 10 (Uint128.toWord x).toNat ++ 32 :: (List.replicate blanks 32 ++
      (magnitude 10 (Uint128.toWord (Uint128.shiftRight x 64)).toNat ++ [32]))) := by
  refine ⟨os.width - (magnitude 10 (Uint128.toWord x).toNat).length, ?_⟩
  simp only [write, OStream.put, Nat.zero_sub, List.replicate_zero, List.append_nil, List.append_assoc]
  -- the blanks of the field come before the one that is written
  rw [← List.append_assoc _ [32] _, ← List.replicate_succ', List.replicate_succ]
  rfl

/-- **A written state is read again.** -/
theorem read_write {W : Type} [Uint128 W] (os : OStream) (x : W) :
    ∃ text, (write os x).text = os.text ++ text ∧ ∀ tail, (read (text ++ tail) : Option (W × List ℤ)) =
      some (ofWords (Uint128.toWord (Uint128.shiftRight x 64)) (Uint128.toWord x), 32 :: tail) := by
  obtain ⟨blanks, htext⟩ := write_text os x
  refine ⟨_, htext, fun tail => ?_⟩
  have hlow := getWord_magnitude 0 (Uint128.toWord x) (List.replicate blanks 32 ++
    (magnitude 10 (Uint128.toWord (Uint128.shiftRight x 64)).toNat ++ 32 :: tail))
  have hhi := getWord_magnitude (blanks + 1) (Uint128.toWord (Uint128.shiftRight x 64)) tail
  rw [List.replicate_zero, List.nil_append] at hlow
  rw [List.replicate_succ, List.cons_append] at hhi
  simp only [List.append_assoc, List.cons_append, List.nil_append]
  rw [read, hlow, Option.bind_some, hhi]
  rfl

theorem ofWords_native (x : BitVec 128) :
    ofWords (Uint128.toWord (Uint128.shiftRight x 64)) (Uint128.toWord x) = x := by
  change ((x >>> 64).setWidth 64).setWidth 128 <<< 64 ||| (x.setWidth 64).setWidth 128 = x
  refine BitVec.eq_of_getLsbD_eq fun i hi => ?_
  by_cases hlow : i < 64
  all_goals grind

theorem outputs_snd {W : Type} [Uint128 W] (P : PcgConstants) (n : ℕ) (x : W) :
    (outputs P n x).2 = (step P)^[n] x := by
  induction n generalizing x with
  | zero => rfl
  | succ n ih => exact ih (step P x)

theorem discard_add_of_eq {W : Type} [Uint128 W] {P : PcgConstants}
    (h : ∀ (z : BitVec 64) (x : W), discard P z x = some (outputs P z.toNat x).2) {a b : BitVec 64} (x : W)
    (hsum : a.toNat + b.toNat < 2 ^ 64) : (discard P a x).bind (discard P b) = discard P (a + b) x := by
  rw [h, Option.bind_some, h, h, outputs_snd, outputs_snd, outputs_snd, ← Function.iterate_add_apply,
    BitVec.toNat_add, Nat.mod_eq_of_lt hsum, Nat.add_comm]

theorem jumpsAndStreams_native (P : PcgConstants) : JumpsAndStreams (BitVec 128) P where
  discard_eq z x := by rw [discard_native, outputs_snd]
  discard_add a b x hsum := discard_add_of_eq (fun z x => by rw [discard_native, outputs_snd]) x hsum
  restored os x := by
    obtain ⟨text, htext, hread⟩ := read_write os x
    exact ⟨text, htext, fun tail => ⟨_, _, hread tail, by rw [ofWords_native]; exact beq_self_eq_true x⟩⟩

open Fallback

theorem discard_fallback (P : PcgConstants) (z : BitVec 64) (x : Fallback) :
    discard P z x = some (outputs P z.toNat x).2 := by
  have hnative := discard_value P z x
  rw [discard_native, ← outputs_snd, ← (outputs_value P z.toNat x).2, Option.map_eq_some_iff] at hnative
  obtain ⟨y, hy, hvalue⟩ := hnative
  rw [hy, value_injective hvalue]

/-- **`discard` is repeated stepping, and streams restore the engine**, for both types of 128 bits. -/
theorem jumpsAndStreams :
    (∀ P, JumpsAndStreams (BitVec 128) P) ∧ ∀ P, JumpsAndStreams Fallback P := by
  refine ⟨jumpsAndStreams_native, fun P => ?_⟩
  exact
    { discard_eq := discard_fallback P
      discard_add := fun a b x hsum => discard_add_of_eq (discard_fallback P) x hsum
      restored := fun os x => by
        obtain ⟨text, htext, hread⟩ := read_write os x
        refine ⟨text, htext, fun tail => ⟨_, _, hread tail, ?_⟩⟩
        have hwords : (ofWords (Uint128.toWord (Uint128.shiftRight x 64)) (Uint128.toWord x) : Fallback) =
            x := by
          refine value_injective ?_
          rw [ofWords, value_uint128_or, value_uint128_shiftLeft, value_uint128_ofWord, toWord_eq, toWord_eq,
            value_uint128_shiftRight]
          exact ofWords_native x.value
        rw [hwords, eq_eq]
        exact beq_self_eq_true x.value }

end Cccl.Random
