/-
# `from_chars`

The integer parser reads a sign, if the type has one, and then digits as long as there are any.  The
accumulator is unsigned; once it would overflow it is left alone, but the digits that follow are
still consumed.  The sign is applied at the end, after a check against the magnitude of the least or
the largest value.

So it recognises a grammar (`IsNumeral`): it consumes the longest prefix that is a numeral, and
stores the number if the type has it (`fromChars_recognises`).  The invariant of the loop is that the
accumulator holds the value of the digits so far, unless that value does not fit
(`Accumulates`).  As a value does not shrink when digits are appended, an accumulator that was left
alone once need not be looked at again.
-/
import Cccl.Cmath.Checked
import Cccl.Lib.Numeral
import Mathlib.Data.List.TakeWhile

namespace Cccl.Charconv

open IntegerTypes Cmath Numeral

/-! ## 1. The source -/

inductive Errc
  | ok
  | invalidArgument
  | resultOutOfRange
  | valueTooLarge
  deriving DecidableEq

/-- `from_chars_result`: the pointer is the number of characters before it. -/
structure FromCharsResult where
  ptr : ℕ
  ec : Errc
  deriving DecidableEq

/-- `__from_chars_char_to_value`. -/
def charToValue (c : ℤ) (base : ℕ) : Bool × ℤ :=
  if base ≤ 10 then (decide (48 ≤ c ∧ c < 48 + base), c - 48)
  else if 48 ≤ c ∧ c ≤ 57 then (true, c - 48)
  else if 97 ≤ c ∧ c < 97 + base - 10 then (true, c - 97 + 10)
  else (decide (65 ≤ c ∧ c < 65 + base - 10), c - 65 + 10)

/-- The locals of `__from_chars_int_generic`. -/
structure Scan where
  it : ℕ
  overflow : Bool
  value : ℕ

/-- The body of the loop, for a digit. -/
def Scan.next (hasInt128 : Bool) (bits base : ℕ) (digit : ℤ) (s : Scan) : Scan :=
  if s.overflow then { s with it := s.it + 1 }
  else
    let product := mulOverflow hasInt128 bits s.value (base % 2 ^ bits)
    let sum := addOverflow bits product.value (digit.toNat % 2 ^ bits)
    if product.overflow || sum.overflow then { s with it := s.it + 1, overflow := true }
    else { s with it := s.it + 1, value := sum.value }

/-- The loop of `__from_chars_int_generic`. -/
def scan (hasInt128 : Bool) (bits base : ℕ) : List ℤ → Scan → Scan
  | [], s => s
  | c :: cs, s =>
    let digit := charToValue c base
    if digit.1 then scan hasInt128 bits base cs (s.next hasInt128 bits base digit.2) else s

def fromCharsIntGeneric (hasInt128 : Bool) (bits base : ℕ) (chars : List ℤ) :
    FromCharsResult × ℕ :=
  let s := scan hasInt128 bits base chars ⟨0, false, 0⟩
  (⟨s.it, if s.overflow then .resultOutOfRange else if s.it = 0 then .invalidArgument else .ok⟩,
    s.value)

/-- The check of the magnitude, and the sign. -/
def applySign (m : DataModel) (T : IntegerType) (isNeg : Bool) (ret : FromCharsResult × ℕ) :
    FromCharsResult × ℤ :=
  if ret.1.ec = .ok then
    let max := uabs m T (if isNeg then T.min m else T.max m)
    ({ ret.1 with ec := if max < ret.2 then .resultOutOfRange else .ok },
      if isNeg then neg m T.makeUnsigned ret.2 else ret.2)
  else (ret.1, ret.2)

/-- What is stored, and where the pointer is after a failure. -/
def storeResult (m : DataModel) (T : IntegerType) (value : ℤ) (ret : FromCharsResult × ℤ) :
    FromCharsResult × ℤ :=
  match ret.1.ec with
  | .ok => (ret.1, T.staticCast m ret.2)
  | .invalidArgument => ({ ret.1 with ptr := 0 }, value)
  | _ => (ret.1, value)

/-- `from_chars`: the characters of the range, and the value that is overwritten. -/
def fromChars (m : DataModel) (hasInt128 : Bool) (T : IntegerType) (chars : List ℤ) (value : ℤ)
    (base : ℕ) : FromCharsResult × ℤ :=
  if T.signed then
    let isNeg := decide (chars.head? = some 45)
    let ret := fromCharsIntGeneric hasInt128 (T.bits m) base (chars.drop isNeg.toNat)
    storeResult m T value
      (applySign m T isNeg ({ ret.1 with ptr := isNeg.toNat + ret.1.ptr }, ret.2))
  else
    let ret := fromCharsIntGeneric hasInt128 (T.bits m) base chars
    storeResult m T value (ret.1, ret.2)

/-! ## 2. The grammar -/

/-- A character that is a digit: the letters of either case come after the numbers. -/
def IsDigit (base : ℕ) (c : ℤ) (d : ℕ) : Prop :=
  d < base ∧ (48 ≤ c ∧ c ≤ 57 ∧ c = 48 + d ∨ 97 ≤ c ∧ c ≤ 122 ∧ c = 87 + d ∨
    65 ≤ c ∧ c ≤ 90 ∧ c = 55 + d)

/-- `['-'] digit+` with the number that it denotes.  Only signed types have the sign. -/
inductive IsNumeral (signed : Bool) (base : ℕ) : List ℤ → ℤ → Prop
  | plain {cs ds} : cs ≠ [] → List.Forall₂ (IsDigit base) cs ds →
      IsNumeral signed base cs (value base ds)
  | minus {cs ds} : signed = true → cs ≠ [] → List.Forall₂ (IsDigit base) cs ds →
      IsNumeral signed base (45 :: cs) (-value base ds)

/-- The longest prefix that is a numeral. -/
structure LongestNumeral (signed : Bool) (base : ℕ) (chars p : List ℤ) (v : ℤ) : Prop where
  isPrefix : p <+: chars
  isNumeral : IsNumeral signed base p v
  longest : ∀ {q w}, q <+: chars → IsNumeral signed base q w → q.length ≤ p.length

/-! ## 3. Digits -/

variable {m : DataModel} {hasInt128 : Bool} {T : IntegerType} {bits base : ℕ}

theorem charToValue_of_isDigit (hbase : base ≤ 36) {c : ℤ} {d : ℕ} (h : IsDigit base c d) :
    charToValue c base = (true, (d : ℤ)) := by
  obtain ⟨hlt, hcases⟩ := h
  unfold charToValue
  split
  · rw [decide_eq_true (by omega), Prod.mk.injEq]
    exact ⟨rfl, by omega⟩
  split
  · rw [Prod.mk.injEq]
    exact ⟨rfl, by omega⟩
  split
  · rw [Prod.mk.injEq]
    exact ⟨rfl, by omega⟩
  · rw [decide_eq_true (by omega), Prod.mk.injEq]
    exact ⟨rfl, by omega⟩

theorem isDigit_of_charToValue (hbase : base ≤ 36) {c : ℤ} (h : (charToValue c base).1 = true) :
    IsDigit base c (charToValue c base).2.toNat := by
  unfold charToValue at h ⊢
  unfold IsDigit
  split at h
  · rename_i hten
    have := of_decide_eq_true h
    rw [if_pos hten]
    omega
  rename_i hten
  split at h
  · rename_i hnumber
    rw [if_neg hten, if_pos hnumber]
    omega
  rename_i hnumber
  split at h
  · rename_i hlower
    rw [if_neg hten, if_neg hnumber, if_pos hlower]
    omega
  · rename_i hlower
    have := of_decide_eq_true h
    rw [if_neg hten, if_neg hnumber, if_neg hlower]
    omega

theorem IsDigit.unique {c : ℤ} {d e : ℕ} (hd : IsDigit base c d) (he : IsDigit base c e) :
    d = e := by
  obtain ⟨-, hd⟩ := hd
  obtain ⟨-, he⟩ := he
  omega

/-- The characters that are digits. -/
def isDigit (base : ℕ) (c : ℤ) : Bool := (charToValue c base).1

/-- The digits with which a sequence starts. -/
def leadingDigits (base : ℕ) (chars : List ℤ) : List ℕ :=
  (chars.takeWhile (isDigit base)).map fun c => (charToValue c base).2.toNat

theorem forall₂_leadingDigits (hbase : base ≤ 36) (chars : List ℤ) :
    List.Forall₂ (IsDigit base) (chars.takeWhile (isDigit base)) (leadingDigits base chars) := by
  rw [leadingDigits, List.forall₂_map_right_iff, List.forall₂_same]
  intro c hc
  have hvalid : isDigit base c = true := List.mem_takeWhile_imp hc
  exact isDigit_of_charToValue hbase hvalid

theorem length_le_of_prefix (hbase : base ≤ 36) {chars cs : List ℤ} {ds : List ℕ}
    (hstart : cs <+: chars) (hdigits : List.Forall₂ (IsDigit base) cs ds) :
    cs.length ≤ (chars.takeWhile (isDigit base)).length := by
  obtain ⟨rest, rfl⟩ := hstart
  have hall : ∀ c ∈ cs, isDigit base c = true := by
    intro c hc
    obtain ⟨i, hi, rfl⟩ := List.getElem_of_mem hc
    have hdigit := hdigits.get hi (hdigits.length_eq ▸ hi)
    exact congrArg Prod.fst (charToValue_of_isDigit hbase hdigit)
  rw [List.takeWhile_append_of_pos hall, List.length_append]
  exact Nat.le_add_right _ _

/-! ## 4. The loop -/

/-- The accumulator after some digits: their value, unless it does not fit. -/
def Accumulates (bits base : ℕ) (ds : List ℕ) (s : Scan) : Prop :=
  if value base ds < 2 ^ bits then s.overflow = false ∧ s.value = value base ds
  else s.overflow = true

theorem Scan.next_eq {it v d : ℕ} (hbits : bits ≤ uintmaxBits hasInt128) (hv : v < 2 ^ bits)
    (hbase : base < 2 ^ bits) (hd : d < 2 ^ bits) :
    Scan.next hasInt128 bits base d ⟨it, false, v⟩ =
      if v * base + d < 2 ^ bits then ⟨it + 1, false, v * base + d⟩ else ⟨it + 1, true, v⟩ := by
  have hcut : (overflowCast bits (v * base)).value < 2 ^ bits := Nat.mod_lt _ (Nat.two_pow_pos _)
  unfold Scan.next
  simp only [Bool.false_eq_true, if_false, Nat.mod_eq_of_lt hbase, Int.toNat_natCast,
    Nat.mod_eq_of_lt hd, mulOverflow_eq hbits hv hbase, addOverflow_eq hcut hd]
  rcases Nat.lt_or_ge (v * base) (2 ^ bits) with hless | hmore
  · have hproduct : overflowCast bits (v * base) = ⟨v * base, false⟩ := by
      rw [overflowCast, Nat.mod_eq_of_lt hless, decide_eq_false (Nat.not_le.mpr hless)]
    simp only [hproduct, Bool.false_or]
    simp only [overflowCast, decide_eq_true_eq]
    split
    · rename_i hsum
      rw [if_neg (Nat.not_lt.mpr hsum)]
    · rename_i hsum
      rw [if_pos (Nat.not_le.mp hsum), Nat.mod_eq_of_lt (Nat.not_le.mp hsum)]
  · have hproduct : (overflowCast bits (v * base)).overflow = true := decide_eq_true hmore
    have hsum : ¬ v * base + d < 2 ^ bits := by omega
    rw [hproduct, Bool.true_or, if_pos rfl, if_neg hsum]

theorem accumulates_start (bits base : ℕ) : Accumulates bits base [] ⟨0, false, 0⟩ := by
  unfold Accumulates
  rw [value_nil, if_pos (Nat.two_pow_pos _)]
  exact ⟨rfl, rfl⟩

/-- **One digit more.** -/
theorem Accumulates.next {ds : List ℕ} {s : Scan} {d : ℕ} (h : Accumulates bits base ds s)
    (hbits : bits ≤ uintmaxBits hasInt128) (hpos : 0 < base) (hbase : base < 2 ^ bits)
    (hd : d < base) : Accumulates bits base (ds ++ [d]) (s.next hasInt128 bits base d) := by
  have hmono := value_le_append hpos ds [d]
  obtain ⟨it, overflow, v⟩ := s
  unfold Accumulates at h ⊢
  rw [value_append_singleton] at hmono ⊢
  split at h
  · rename_i hfits
    obtain ⟨rfl, rfl⟩ := h
    rw [Scan.next_eq hbits hfits hbase (hd.trans hbase)]
    split
    · exact ⟨rfl, rfl⟩
    · rfl
  · rename_i hfits
    obtain rfl : overflow = true := h
    have hsum : ¬ value base ds * base + d < 2 ^ bits := by omega
    rw [if_neg hsum]
    rfl

theorem Scan.next_it (digit : ℤ) (s : Scan) : (s.next hasInt128 bits base digit).it = s.it + 1 := by
  unfold Scan.next
  split
  · rfl
  · dsimp only
    split <;> rfl

/-- **The loop reads all digits at the start**, and keeps their value. -/
theorem scan_spec (hbits : bits ≤ uintmaxBits hasInt128) (hpos : 0 < base) (hbase : base ≤ 36)
    (hword : base < 2 ^ bits) : ∀ (cs : List ℤ) {ds : List ℕ} {s : Scan},
      Accumulates bits base ds s →
        (scan hasInt128 bits base cs s).it = s.it + (leadingDigits base cs).length ∧
          Accumulates bits base (ds ++ leadingDigits base cs) (scan hasInt128 bits base cs s)
  | [], ds, s, h => by
    rw [scan, leadingDigits, List.takeWhile_nil, List.map_nil, List.append_nil]
    exact ⟨rfl, h⟩
  | c :: cs, ds, s, h => by
    rw [scan]
    split
    · rename_i hvalid
      obtain ⟨hlt, -⟩ := isDigit_of_charToValue hbase hvalid
      have hdigits : leadingDigits base (c :: cs) =
          (charToValue c base).2.toNat :: leadingDigits base cs := by
        rw [leadingDigits, List.takeWhile_cons_of_pos (by exact hvalid), List.map_cons, leadingDigits]
      have hcast : (((charToValue c base).2.toNat : ℕ) : ℤ) = (charToValue c base).2 := by
        have := congrArg Prod.snd (charToValue_of_isDigit hbase (isDigit_of_charToValue hbase hvalid))
        exact this.symm
      have hnext : Accumulates bits base _ (Scan.next hasInt128 bits base _ _) :=
        h.next hbits hpos hword hlt
      rw [hcast] at hnext
      obtain ⟨hit, hvalue⟩ := scan_spec hbits hpos hbase hword cs hnext
      rw [Scan.next_it] at hit
      rw [List.append_assoc, List.singleton_append, ← hdigits] at hvalue
      refine ⟨?_, hvalue⟩
      rw [hit, hdigits, List.length_cons]
      omega
    · rename_i hinvalid
      rw [leadingDigits, List.takeWhile_cons_of_neg (by exact hinvalid), List.map_nil,
        List.append_nil]
      exact ⟨rfl, h⟩

/-- **`__from_chars_int_generic`**, if the number fits. -/
theorem fromCharsIntGeneric_of_lt (hbits : bits ≤ uintmaxBits hasInt128) (hpos : 0 < base)
    (hbase : base ≤ 36) (hword : base < 2 ^ bits) (chars : List ℤ)
    (hfits : value base (leadingDigits base chars) < 2 ^ bits) :
    fromCharsIntGeneric hasInt128 bits base chars =
      (⟨(leadingDigits base chars).length,
        if leadingDigits base chars = [] then .invalidArgument else .ok⟩,
        value base (leadingDigits base chars)) := by
  obtain ⟨hit, hvalue⟩ := scan_spec hbits hpos hbase hword chars (accumulates_start bits base)
  rw [List.nil_append, Accumulates, if_pos hfits] at hvalue
  rw [Nat.zero_add] at hit
  unfold fromCharsIntGeneric
  dsimp only
  rw [hit, hvalue.1, hvalue.2, if_neg Bool.false_ne_true]
  simp only [List.length_eq_zero_iff]

/-- If the number does not fit, the digits are consumed all the same. -/
theorem fromCharsIntGeneric_of_ge (hbits : bits ≤ uintmaxBits hasInt128) (hpos : 0 < base)
    (hbase : base ≤ 36) (hword : base < 2 ^ bits) (chars : List ℤ)
    (hlarge : 2 ^ bits ≤ value base (leadingDigits base chars)) :
    (fromCharsIntGeneric hasInt128 bits base chars).1 =
      ⟨(leadingDigits base chars).length, .resultOutOfRange⟩ := by
  obtain ⟨hit, hvalue⟩ := scan_spec hbits hpos hbase hword chars (accumulates_start bits base)
  rw [List.nil_append, Accumulates, if_neg (Nat.not_lt.mpr hlarge)] at hvalue
  rw [Nat.zero_add] at hit
  unfold fromCharsIntGeneric
  dsimp only
  rw [hit, hvalue, if_pos rfl]

/-! ## 5. Exactly the grammar -/

/-- A sign, in front of the digits of a signed type. -/
def hasMinus (T : IntegerType) (chars : List ℤ) : Bool := T.signed && decide (chars.head? = some 45)

/-- The digits behind the sign. -/
def numeralDigits (T : IntegerType) (base : ℕ) (chars : List ℤ) : List ℕ :=
  leadingDigits base (chars.drop (hasMinus T chars).toNat)

/-- The number that they denote, with the sign. -/
def denoted (T : IntegerType) (base : ℕ) (chars : List ℤ) : ℤ :=
  if hasMinus T chars then -value base (numeralDigits T base chars)
  else value base (numeralDigits T base chars)

/-- The type exists: a platform without a 128-bit integer has only types of up to 64 bits. -/
def Supported (hasInt128 : Bool) (T : IntegerType) : Prop := T.rank = .int128 → hasInt128 = true

instance : Decidable (Supported hasInt128 T) := inferInstanceAs (Decidable (_ → _))

theorem Supported.bits_le (h : Supported hasInt128 T) : T.bits m ≤ uintmaxBits hasInt128 := by
  obtain ⟨rank, signed⟩ := T
  cases hasInt128 <;> cases rank <;> cases m <;> revert h <;> cases signed <;> decide

theorem base_lt_two_pow (hbase : base ≤ 36) : base < 2 ^ T.bits m := by
  have hbits : 8 ≤ T.bits m := by
    change 8 ≤ T.rank.bits m
    cases m <;> cases T.rank <;> decide
  exact (show base < 2 ^ 8 by omega).trans_le (Nat.pow_le_pow_right (by decide) hbits)

/-- The largest magnitude that is accepted, with or without a sign. -/
theorem uabs_limit (hsigned : T.signed = true) (isNeg : Bool) (v : ℕ) :
    (uabs m T (if isNeg then T.min m else T.max m) < v) ↔
      ¬ T.Has m (if isNeg then -(v : ℤ) else v) := by
  have hpos : 0 < 2 ^ T.digits m := Nat.two_pow_pos _
  cases isNeg with
  | true =>
    have hmin : T.min m = -((2 ^ T.digits m : ℕ) : ℤ) := by
      rw [IntegerType.min, if_pos hsigned, Nat.cast_pow]
      rfl
    have hhas : T.Has m (T.min m) := by
      rw [hmin, IntegerType.has_neg_natCast_iff hsigned]
    rw [if_pos rfl, if_pos rfl, uabs_eq hhas, IntegerType.has_neg_natCast_iff hsigned, hmin,
      Int.natAbs_neg, Int.natAbs_natCast]
    omega
  | false =>
    have hhas : T.Has m (T.max m) := IntegerType.has_of_le (Nat.le_refl _)
    rw [if_neg Bool.false_ne_true, if_neg Bool.false_ne_true, uabs_eq hhas,
      IntegerType.has_natCast_iff, Int.natAbs_natCast, IntegerType.max]
    omega

/-- What `from_chars` returns and stores, from the digits behind the sign. -/
def outcome (m : DataModel) (T : IntegerType) (base : ℕ) (chars : List ℤ) (old : ℤ) :
    FromCharsResult × ℤ :=
  let consumed := (hasMinus T chars).toNat + (numeralDigits T base chars).length
  if numeralDigits T base chars = [] then (⟨0, .invalidArgument⟩, old)
  else if T.Has m (denoted T base chars) then (⟨consumed, .ok⟩, denoted T base chars)
  else (⟨consumed, .resultOutOfRange⟩, old)

theorem fromChars_unsigned (hT : Supported hasInt128 T) (hpos : 0 < base) (hbase : base ≤ 36)
    (hunsigned : T.signed = false) (chars : List ℤ) (old : ℤ) :
    fromChars m hasInt128 T chars old base = outcome m T base chars old := by
  have hbits := hT.bits_le (m := m)
  have hword : base < 2 ^ T.bits m := base_lt_two_pow hbase
  have hminus : hasMinus T chars = false := by rw [hasMinus, hunsigned, Bool.false_and]
  have hdigits : numeralDigits T base chars = leadingDigits base chars := by
    rw [numeralDigits, hminus]
    rfl
  have hdenoted : denoted T base chars = value base (leadingDigits base chars) := by
    rw [denoted, hminus, if_neg Bool.false_ne_true, hdigits]
  have hhas : T.Has m (value base (leadingDigits base chars)) ↔
      value base (leadingDigits base chars) < 2 ^ T.bits m := by
    rw [IntegerType.has_natCast_iff, IntegerType.digits_of_unsigned hunsigned]
  unfold fromChars outcome
  rw [hdenoted, hdigits, hminus, if_neg (by rw [hunsigned]; decide), Bool.toNat_false]
  rcases Nat.lt_or_ge (value base (leadingDigits base chars)) (2 ^ T.bits m) with hless | hmore
  · rw [fromCharsIntGeneric_of_lt hbits hpos hbase hword chars hless]
    split
    · rfl
    · rw [if_pos (hhas.mpr hless), Nat.zero_add, storeResult]
      dsimp only
      rw [IntegerType.staticCast_of_has (hhas.mpr hless)]
  · have hne : leadingDigits base chars ≠ [] := by
      intro hnil
      rw [hnil, value_nil] at hmore
      exact absurd hmore (Nat.not_le.mpr (Nat.two_pow_pos _))
    dsimp only
    rw [fromCharsIntGeneric_of_ge hbits hpos hbase hword chars hmore, if_neg hne,
      if_neg (fun h => Nat.not_lt.mpr hmore (hhas.mp h)), Nat.zero_add, storeResult]

theorem staticCast_neg {v : ℕ} (isNeg : Bool) (hhas : T.Has m (if isNeg then -(v : ℤ) else v)) :
    T.staticCast m (if isNeg then neg m T.makeUnsigned v else v) =
      if isNeg then -(v : ℤ) else v := by
  cases isNeg with
  | true =>
    rw [if_pos rfl] at hhas ⊢
    rw [if_pos rfl]
    refine IntegerType.staticCast_eq hhas ?_
    rw [sub_neg_eq_add]
    exact dvd_neg_add (T := T.makeUnsigned) v
  | false => exact IntegerType.staticCast_of_has hhas

theorem fromChars_signed (hT : Supported hasInt128 T) (hpos : 0 < base) (hbase : base ≤ 36)
    (hsigned : T.signed = true) (chars : List ℤ) (old : ℤ) :
    fromChars m hasInt128 T chars old base = outcome m T base chars old := by
  have hbits := hT.bits_le (m := m)
  have hword : base < 2 ^ T.bits m := base_lt_two_pow hbase
  have hminus : decide (chars.head? = some 45) = hasMinus T chars := by
    rw [hasMinus, hsigned, Bool.true_and]
  unfold fromChars outcome
  rw [if_pos hsigned]
  dsimp only
  rw [hminus, denoted]
  have hlimit := uabs_limit (m := m) hsigned (hasMinus T chars)
    (value base (numeralDigits T base chars))
  have hcast := staticCast_neg (m := m) (T := T) (v := value base (numeralDigits T base chars))
    (hasMinus T chars)
  unfold numeralDigits at hlimit hcast ⊢
  generalize hrest : chars.drop (hasMinus T chars).toNat = rest at hlimit hcast ⊢
  generalize hnumber : (if hasMinus T chars = true then -(value base (leadingDigits base rest) : ℤ)
    else value base (leadingDigits base rest)) = number at hlimit hcast ⊢
  rcases Nat.lt_or_ge (value base (leadingDigits base rest)) (2 ^ T.bits m) with hless | hmore
  · rw [fromCharsIntGeneric_of_lt hbits hpos hbase hword rest hless]
    by_cases hnil : leadingDigits base rest = []
    · rw [if_pos hnil, if_pos hnil]
      rfl
    · rw [if_neg hnil, if_neg hnil, applySign, if_pos rfl]
      dsimp only
      by_cases hhas : T.Has m number
      · rw [if_pos hhas, if_neg (fun h => hlimit.mp (by exact_mod_cast h) hhas), storeResult]
        dsimp only
        rw [hcast hhas]
      · rw [if_neg hhas, if_pos (by exact_mod_cast hlimit.mpr hhas), storeResult]
  · have hne : leadingDigits base rest ≠ [] := by
      intro hnil
      rw [hnil, value_nil] at hmore
      exact absurd hmore (Nat.not_le.mpr (Nat.two_pow_pos _))
    have hhas : ¬ T.Has m number := by
      rw [← hnumber]
      have hdouble : 2 ^ T.bits m = 2 * 2 ^ T.digits m := by
        rw [← IntegerType.digits_of_signed hsigned, Nat.pow_succ']
      have hpos : 0 < 2 ^ T.digits m := Nat.two_pow_pos _
      split
      · rw [IntegerType.has_neg_natCast_iff hsigned]
        omega
      · rw [IntegerType.has_natCast_iff]
        omega
    rw [fromCharsIntGeneric_of_ge hbits hpos hbase hword rest hmore, if_neg hne, if_neg hhas,
      applySign, if_neg (show ¬ Errc.resultOutOfRange = .ok from by decide), storeResult]

theorem fromChars_eq (hT : Supported hasInt128 T) (hpos : 0 < base) (hbase : base ≤ 36)
    (chars : List ℤ) (old : ℤ) :
    fromChars m hasInt128 T chars old base = outcome m T base chars old := by
  cases hsigned : T.signed with
  | true => exact fromChars_signed hT hpos hbase hsigned chars old
  | false => exact fromChars_unsigned hT hpos hbase hsigned chars old

theorem not_isDigit_minus (d : ℕ) : ¬ IsDigit base 45 d := by
  rintro ⟨-, h⟩
  omega

theorem isDigit_head {cs : List ℤ} {ds : List ℕ} (hne : cs ≠ [])
    (hdigits : List.Forall₂ (IsDigit base) cs ds) : cs.head? ≠ some 45 := by
  cases hdigits with
  | nil => exact absurd rfl hne
  | cons hd _ =>
    intro h
    rw [Option.some.inj h] at hd
    exact not_isDigit_minus _ hd

/-- **No numeral is longer** than sign and digits at the start. -/
theorem IsNumeral.length_le (hbase : base ≤ 36) {chars q : List ℤ} {w : ℤ} (hq : q <+: chars)
    (h : IsNumeral T.signed base q w) : numeralDigits T base chars ≠ [] ∧
      q.length ≤ (hasMinus T chars).toNat + (numeralDigits T base chars).length := by
  cases h with
  | plain hne hdigits =>
    have hhead := isDigit_head hne hdigits
    have hminus : hasMinus T chars = false := by
      obtain ⟨rest, rfl⟩ := hq
      rw [hasMinus, List.head?_append_of_ne_nil _ hne, decide_eq_false hhead, Bool.and_false]
    have hle := length_le_of_prefix hbase hq hdigits
    have hpos := List.length_pos_iff.mpr hne
    have hdrop : chars.drop 0 = chars := rfl
    rw [numeralDigits, hminus, Bool.toNat_false, hdrop, leadingDigits, List.length_map,
      ← List.length_pos_iff, List.length_map]
    omega
  | minus hsigned hne hdigits =>
    obtain ⟨rest, rfl⟩ := hq
    have hminus : ∀ cs, hasMinus T (45 :: cs) = true := by
      intro cs
      rw [hasMinus, hsigned, List.head?_cons, decide_eq_true rfl, Bool.and_true]
    have hle := length_le_of_prefix hbase (List.prefix_append _ rest) hdigits
    have hpos := List.length_pos_iff.mpr hne
    rw [numeralDigits, List.cons_append, hminus, Bool.toNat_true, List.drop_one, List.tail_cons,
      leadingDigits, List.length_map, ← List.length_pos_iff, List.length_map, List.length_cons]
    omega

theorem longestNumeral (hbase : base ≤ 36) {chars : List ℤ} (hne : numeralDigits T base chars ≠ []) :
    ∃ p, LongestNumeral T.signed base chars p (denoted T base chars) ∧
      p.length = (hasMinus T chars).toNat + (numeralDigits T base chars).length := by
  have hlength : ∀ cs, (leadingDigits base cs).length = (cs.takeWhile (isDigit base)).length :=
    fun cs => List.length_map _
  have hnil : ∀ cs, leadingDigits base cs ≠ [] → cs.takeWhile (isDigit base) ≠ [] := by
    intro cs h hcs
    rw [leadingDigits, hcs] at h
    exact h rfl
  have hlongest : ∀ {p : List ℤ}, p.length = (hasMinus T chars).toNat +
      (numeralDigits T base chars).length → ∀ {q w}, q <+: chars →
        IsNumeral T.signed base q w → q.length ≤ p.length := by
    intro p hp q w hq h
    rw [hp]
    exact (h.length_le hbase hq).2
  unfold denoted
  cases hminus : hasMinus T chars with
  | false =>
    have hdigits : numeralDigits T base chars = leadingDigits base chars := by
      rw [numeralDigits, hminus]
      rfl
    have hp : (chars.takeWhile (isDigit base)).length =
        (hasMinus T chars).toNat + (numeralDigits T base chars).length := by
      rw [hminus, hdigits, hlength]
      exact (Nat.zero_add _).symm
    rw [hminus] at hp hlongest
    refine ⟨_, ⟨List.takeWhile_prefix _, ?_, hlongest hp⟩, hp⟩
    rw [if_neg Bool.false_ne_true, hdigits]
    exact .plain (hnil _ (hdigits ▸ hne)) (forall₂_leadingDigits hbase chars)
  | true =>
    obtain ⟨hsigned, hhead⟩ := (Bool.and_eq_true _ _).mp hminus
    obtain ⟨rest, rfl⟩ : ∃ rest, chars = 45 :: rest := by
      cases chars with
      | nil => exact absurd (of_decide_eq_true hhead) (by simp)
      | cons c rest => exact ⟨rest, by rw [Option.some.inj (of_decide_eq_true hhead)]⟩
    have hdigits : numeralDigits T base (45 :: rest) = leadingDigits base rest := by
      rw [numeralDigits, hminus]
      rfl
    have hp : (45 :: rest.takeWhile (isDigit base) : List ℤ).length =
        (hasMinus T (45 :: rest)).toNat + (numeralDigits T base (45 :: rest)).length := by
      rw [hminus, hdigits, hlength, List.length_cons]
      exact Nat.add_comm _ _
    rw [hminus] at hp hlongest
    refine ⟨_, ⟨(List.prefix_cons_inj _).mpr (List.takeWhile_prefix _), ?_, hlongest hp⟩, hp⟩
    rw [if_pos rfl, hdigits]
    exact .minus hsigned (hnil _ (hdigits ▸ hne)) (forall₂_leadingDigits hbase rest)

theorem IsNumeral.unique {signed : Bool} {p : List ℤ} {v w : ℤ} (hv : IsNumeral signed base p v)
    (hw : IsNumeral signed base p w) : v = w := by
  have hdigits : ∀ {cs ds es}, List.Forall₂ (IsDigit base) cs ds →
      List.Forall₂ (IsDigit base) cs es → ds = es := fun hd he =>
    Relator.RightUnique.forall₂ (fun _ _ _ h h' => h.unique h') hd he
  cases hv with
  | plain hne hd =>
    cases hw with
    | plain _ he => rw [hdigits hd he]
    | minus _ _ _ => exact absurd rfl (isDigit_head hne hd)
  | minus _ hne hd =>
    cases hw with
    | plain hne' he => exact absurd rfl (isDigit_head hne' he)
    | minus _ _ he => rw [hdigits hd he]

theorem LongestNumeral.unique {signed : Bool} {chars p q : List ℤ} {v w : ℤ}
    (hp : LongestNumeral signed base chars p v) (hq : LongestNumeral signed base chars q w) :
    p = q ∧ v = w := by
  have hlength : p.length = q.length :=
    Nat.le_antisymm (hq.longest hp.isPrefix hp.isNumeral) (hp.longest hq.isPrefix hq.isNumeral)
  obtain rfl : p = q := (List.prefix_of_prefix_length_le hp.isPrefix hq.isPrefix hlength.le).eq_of_length hlength
  exact ⟨rfl, hp.isNumeral.unique hq.isNumeral⟩

/-- A result that fits the grammar.  `old` is what the value was before. -/
structure Recognises (m : DataModel) (T : IntegerType) (base : ℕ) (chars : List ℤ) (old : ℤ)
    (r : FromCharsResult × ℤ) : Prop where
  invalid : r.1.ec = .invalidArgument ↔ ¬ ∃ p v, p <+: chars ∧ IsNumeral T.signed base p v
  invalid_untouched : r.1.ec = .invalidArgument → r.1.ptr = 0 ∧ r.2 = old
  consumed : ∀ {p v}, LongestNumeral T.signed base chars p v → r.1.ptr = p.length
  outOfRange : r.1.ec = .resultOutOfRange ↔
    ∃ p v, LongestNumeral T.signed base chars p v ∧ ¬ T.Has m v
  outOfRange_untouched : r.1.ec = .resultOutOfRange → r.2 = old
  stored : ∀ {p v}, LongestNumeral T.signed base chars p v → T.Has m v → r.1.ec = .ok ∧ r.2 = v

/-- The result from sign and digits at the start fits the grammar. -/
theorem outcome_recognises (hbase : base ≤ 36) (chars : List ℤ) (old : ℤ) :
    Recognises m T base chars old (outcome m T base chars old) := by
  rw [outcome]
  by_cases hnil : numeralDigits T base chars = []
  · have hnone : ¬ ∃ p v, p <+: chars ∧ IsNumeral T.signed base p v := by
      rintro ⟨p, v, hp, h⟩
      exact (h.length_le hbase hp).1 hnil
    have habsurd : ∀ {p v} {P : Prop}, LongestNumeral T.signed base chars p v → P :=
      fun h => absurd ⟨_, _, h.isPrefix, h.isNumeral⟩ hnone
    rw [if_pos hnil]
    refine ⟨⟨fun _ => hnone, fun _ => rfl⟩, fun _ => ⟨rfl, rfl⟩, habsurd, ?_, fun _ => rfl, habsurd⟩
    exact ⟨fun h => absurd h (by simp), fun ⟨_, _, h, _⟩ => habsurd h⟩
  obtain ⟨p, hp, hlength⟩ := longestNumeral hbase hnil
  have hsome : ∃ p v, p <+: chars ∧ IsNumeral T.signed base p v :=
    ⟨_, _, hp.isPrefix, hp.isNumeral⟩
  have hconsumed : ∀ {q v}, LongestNumeral T.signed base chars q v →
      (hasMinus T chars).toNat + (numeralDigits T base chars).length = q.length := by
    intro q v hq
    rw [← hlength, (hp.unique hq).1]
  rw [if_neg hnil]
  by_cases hhas : T.Has m (denoted T base chars)
  · rw [if_pos hhas]
    refine ⟨⟨fun h => absurd h (by simp), fun h => absurd hsome h⟩, fun h => absurd h (by simp),
      hconsumed, ⟨fun h => absurd h (by simp), ?_⟩, fun h => absurd h (by simp), ?_⟩
    · rintro ⟨q, v, hq, hnot⟩
      rw [(hp.unique hq).2] at hhas
      exact absurd hhas hnot
    · intro q v hq _
      exact ⟨rfl, (hp.unique hq).2⟩
  · rw [if_neg hhas]
    refine ⟨⟨fun h => absurd h (by simp), fun h => absurd hsome h⟩, fun h => absurd h (by simp),
      hconsumed, ⟨fun _ => ⟨p, _, hp, hhas⟩, fun _ => rfl⟩, fun _ => rfl, ?_⟩
    intro q v hq hv
    rw [(hp.unique hq).2] at hhas
    exact absurd hv hhas

/-- **`from_chars` recognises the grammar.** -/
theorem fromChars_recognises (hT : Supported hasInt128 T) (hlow : 2 ≤ base) (hbase : base ≤ 36)
    (chars : List ℤ) (old : ℤ) :
    Recognises m T base chars old (fromChars m hasInt128 T chars old base) := by
  rw [fromChars_eq hT (by omega) hbase]
  exact outcome_recognises hbase chars old

/-- The number 300 with a character behind it does not fit into 8 bits. -/
theorem fromChars_recognises_byte : Recognises .lp64 ⟨.char, false⟩ 10 [51, 48, 48, 120] 7
    (fromChars .lp64 true ⟨.char, false⟩ [51, 48, 48, 120] 7 10) :=
  fromChars_recognises (by decide) (by decide) (by decide) _ _

end Cccl.Charconv
