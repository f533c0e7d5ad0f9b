/-
# `to_chars`

The width of the numeral is computed first, in one of three ways: from the position of the highest bit
if the base is a power of two, from the decimal logarithm if the base is ten, and else by division by
the fourth power of the base.  Then the digits are written from the last one to the first, so that a
width that is too large would leave the first characters as they were.

The width is the length of the numeral (`toCharsIntWidth_eq`), but for the largest number of a type
for which `ilog10` is wrong.  So writing succeeds if and only if there is room, writes the canonical
numeral and nothing else, and `from_chars` reads the number back (`roundTrips_iff_regular`).
-/
import Cccl.Charconv.FromChars
import Cccl.Cmath.Ilog10

namespace Cccl.Charconv

open IntegerTypes Cmath Numeral

/-! ## 1. The source -/

structure ToCharsResult where
  ptr : ℕ
  ec : Errc
  deriving DecidableEq

/-- `__to_chars_value_to_char`. -/
def valueToChar (base v : ℕ) : ℤ := (if base < 10 ∨ v < 10 then 48 else 97 - 10) + v

/-- The loop of `__to_chars_int_width`, in a type of some width.  The fourth power of a base that is
accepted is greater than one. -/
def widthLoop (bits base uv : ℕ) : ℕ :=
  let base2 := base * base % 2 ^ bits
  let base3 := base2 * base % 2 ^ bits
  let base4 := base2 * base2 % 2 ^ bits
  if uv < base then 1
  else if uv < base2 then 2
  else if uv < base3 then 3
  else if uv < base4 then 4
  else if _h : 1 < base4 ∧ 0 < uv then widthLoop bits base (uv / base4) + 4
  else 0
termination_by uv
decreasing_by exact Nat.div_lt_self _h.2 _h.1

def countlZero (bits v : ℕ) : ℕ := if v = 0 then bits else bits - 1 - Nat.log2 v

/-- `ceil_div` of two numbers of type `int`. -/
def ceilDiv (a b : ℕ) : ℕ := (a + b - 1) / b

/-- The width for a base that is a power of two. -/
def widthOfPow2 (bits base v : ℕ) : ℕ := ceilDiv (bits - countlZero bits (v ||| 1)) (ilog2 base)

/-- `__to_chars_int_width`, with the bases that have a way of their own. -/
def toCharsIntWidth (m : DataModel) (T : IntegerType) (v base : ℕ) : ℕ :=
  match base with
  | 2 | 4 | 8 | 16 | 32 => widthOfPow2 (T.bits m) base v
  | 10 => if 1 < v then ilog10 m T v + 1 else 1
  | _ => widthLoop (max (T.bits m) 32) base v

/-- A store to a character of the range. -/
def store (buf : List ℤ) (i : ℕ) (c : ℤ) : Option (List ℤ) :=
  if i < buf.length then some (buf.set i c) else none

/-- `__to_chars_int_generic`: the characters before a position are written from right to left. -/
def toCharsIntGeneric (base : ℕ) : ℕ → ℕ → List ℤ → Option (List ℤ)
  | 0, _, _ => none
  | last + 1, value, buf =>
    (store buf last (valueToChar base (value % base))).bind fun buf =>
      if value / base ≠ 0 then toCharsIntGeneric base last (value / base) buf else some buf

/-- `to_chars` of an unsigned type, from a position of the range on. -/
def toCharsUnsigned (m : DataModel) (T : IntegerType) (first value base : ℕ) (buf : List ℤ) :
    Option (ToCharsResult × List ℤ) :=
  let cap := buf.length - first
  let n := toCharsIntWidth m T value base
  if cap < n then some (⟨buf.length, .valueTooLarge⟩, buf)
  else (toCharsIntGeneric base (first + n) value buf).map fun buf => (⟨first + n, .ok⟩, buf)

/-- `to_chars`.  The range is the buffer. -/
def toChars (m : DataModel) (T : IntegerType) (value : ℤ) (base : ℕ) (buf : List ℤ) :
    Option (ToCharsResult × List ℤ) :=
  if T.signed then
    if value < 0 ∧ 0 < buf.length then
      (store buf 0 45).bind (toCharsUnsigned m T.makeUnsigned 1 (uabs m T value).toNat base)
    else toCharsUnsigned m T.makeUnsigned 0 (uabs m T value).toNat base buf
  else toCharsUnsigned m T 0 value.toNat base buf

/-! ## 2. The width -/

variable {m : DataModel} {hasInt128 : Bool} {T : IntegerType} {base : ℕ}

theorem widthLoop_eq {bits : ℕ} (hlow : 2 ≤ base) (hbase : base ≤ 36) (hbits : 32 ≤ bits) (v : ℕ) :
    widthLoop bits base v = Nat.log base v + 1 := by
  have hword : 36 ^ 4 < 2 ^ bits := (by decide : 36 ^ 4 < 2 ^ 32).trans_le
    (Nat.pow_le_pow_right (by decide) hbits)
  have hpow : ∀ {k}, k ≤ 4 → base ^ k < 2 ^ bits := fun hk =>
    ((Nat.pow_le_pow_left hbase _).trans (Nat.pow_le_pow_right (by decide) hk)).trans_lt hword
  have h2 : base * base % 2 ^ bits = base ^ 2 := by
    rw [← Nat.pow_two, Nat.mod_eq_of_lt (hpow (by decide))]
  have h3 : base ^ 2 * base % 2 ^ bits = base ^ 3 := by
    rw [← Nat.pow_succ, Nat.mod_eq_of_lt (hpow (by decide))]
  have h4 : base ^ 2 * base ^ 2 % 2 ^ bits = base ^ 4 := by
    rw [← Nat.pow_add, Nat.mod_eq_of_lt (hpow (by decide))]
  have hone : 1 < base ^ 4 := Nat.one_lt_pow (by decide) hlow
  induction v using Nat.strong_induction_on with
  | _ v ih =>
    rw [widthLoop, h2, h3, h4]
    split
    · rename_i h
      rw [Nat.log_of_lt h]
    rename_i hge
    have hlog : ∀ {k}, base ^ k ≤ v → v < base ^ (k + 1) → Nat.log base v = k :=
      fun h h' => Nat.log_eq_of_pow_le_of_lt_pow h h'
    split
    · rename_i h
      rw [hlog (k := 1) (by rw [Nat.pow_one]; omega) h]
    rename_i hge2
    split
    · rename_i h
      rw [hlog (k := 2) (Nat.not_lt.mp hge2) h]
    rename_i hge3
    split
    · rename_i h
      rw [hlog (k := 3) (Nat.not_lt.mp hge3) h]
    rename_i hge4
    have hpos : 0 < v := by omega
    have hle : 4 ≤ Nat.log base v := (Nat.le_log_iff_pow_le hlow hpos.ne').mpr (Nat.not_lt.mp hge4)
    rw [dif_pos ⟨hone, hpos⟩, ih _ (Nat.div_lt_self hpos hone), Nat.log_div_base_pow]
    omega

/-- The highest bit stays where it is if the lowest one is set. -/
theorem log2_or_one (v : ℕ) : Nat.log2 (v ||| 1) = Nat.log2 v := by
  rcases Nat.eq_zero_or_pos v with rfl | hpos
  · decide
  · have hlow := Nat.log2_self_le hpos.ne'
    have hhigh : v < 2 ^ (Nat.log2 v + 1) := Nat.lt_log2_self
    have hle : v ≤ v ||| 1 := Nat.left_le_or
    have hlt : v ||| 1 < 2 ^ (Nat.log2 v + 1) :=
      Nat.or_lt_two_pow hhigh (Nat.one_lt_two_pow (Nat.succ_ne_zero _))
    exact (Nat.log2_eq_iff (by omega)).mpr ⟨hlow.trans hle, hlt⟩

theorem widthOfPow2_eq {bits k v : ℕ} (hk : 0 < k) (hv : v < 2 ^ bits) (hbits : 0 < bits) :
    widthOfPow2 bits (2 ^ k) v = Nat.log (2 ^ k) v + 1 := by
  have hne : v ||| 1 ≠ 0 := by
    have : 1 ≤ v ||| 1 := Nat.right_le_or
    omega
  have hlog : Nat.log2 v < bits := by
    rcases Nat.eq_zero_or_pos v with rfl | hpos
    · exact hbits
    · exact (Nat.log2_lt hpos.ne').mpr hv
  have hlength : bits - (bits - 1 - Nat.log2 v) = Nat.log2 v + 1 := by omega
  rw [widthOfPow2, countlZero, if_neg hne, log2_or_one, hlength, ilog2, Nat.log2_two_pow, ceilDiv,
    Nat.log_pow_left, ← Nat.log2_eq_log_two]
  have hsum : Nat.log2 v + 1 + k - 1 = Nat.log2 v + k := by omega
  rw [hsum, Nat.add_div_right _ hk]

/-- **The width is the length of the numeral**, with one exception. -/
theorem toCharsIntWidth_eq (hT : T.signed = false) (hlow : 2 ≤ base) (hbase : base ≤ 36) {v : ℕ}
    (hv : v < 2 ^ T.bits m) : toCharsIntWidth m T v base =
      (digits base v).length + (decide (base = 10 ∧ LargestLong m T v)).toNat := by
  have hpow : ∀ k, 0 < k → widthOfPow2 (T.bits m) (2 ^ k) v = (digits (2 ^ k) v).length := by
    intro k hk
    rw [length_digits (Nat.one_lt_two_pow hk.ne'), widthOfPow2_eq hk hv IntegerType.bits_pos]
  have hother : base ≠ 10 → (decide (base = 10 ∧ LargestLong m T v)).toNat = 0 := by
    intro hne
    rw [decide_eq_false (fun h => hne h.1)]
    rfl
  unfold toCharsIntWidth
  split
  · rw [hother (by decide)]
    exact hpow 1 (by decide)
  · rw [hother (by decide)]
    exact hpow 2 (by decide)
  · rw [hother (by decide)]
    exact hpow 3 (by decide)
  · rw [hother (by decide)]
    exact hpow 4 (by decide)
  · rw [hother (by decide)]
    exact hpow 5 (by decide)
  · rw [length_digits (by decide)]
    split
    · rename_i hone
      rw [ilog10_eq hT (by omega) hv]
      simp only [true_and]
      omega
    · rename_i hone
      have hlarge : ¬ LargestLong m T v := by
        rintro ⟨-, -, h⟩
        omega
      rw [Nat.log_of_lt (by omega), decide_eq_false (fun h => hlarge h.2)]
      rfl
  · rw [hother ‹_›, length_digits hlow]
    exact widthLoop_eq hlow hbase (Nat.le_max_right _ _) v

/-! ## 3. The digits -/

/-- The characters of a number that is not negative. -/
def magnitude (base v : ℕ) : List ℤ := (digits base v).map (valueToChar base)

theorem length_magnitude (v : ℕ) : (magnitude base v).length = (digits base v).length :=
  List.length_map _

theorem store_of_lt {buf : List ℤ} {i : ℕ} (h : i < buf.length) (c : ℤ) :
    store buf i c = some (buf.take i ++ c :: buf.drop (i + 1)) := by
  rw [store, if_pos h, List.set_eq_take_append_cons_drop, if_pos h]

/-- **The digits are written from right to left**, and nothing else is written. -/
theorem toCharsIntGeneric_eq (hlow : 2 ≤ base) : ∀ {last v : ℕ} {buf : List ℤ},
    (magnitude base v).length ≤ last → last ≤ buf.length → toCharsIntGeneric base last v buf =
      some (buf.take (last - (magnitude base v).length) ++ magnitude base v ++ buf.drop last)
  | 0, v, buf, hlength, _ => by
    rw [length_magnitude] at hlength
    exact absurd (List.length_eq_zero_iff.mp (Nat.le_zero.mp hlength)) (digits_ne_nil v)
  | last + 1, v, buf, hlength, hlast => by
    rw [toCharsIntGeneric, store_of_lt hlast, Option.bind_some]
    rcases Nat.lt_or_ge v base with hless | hmore
    · have hdiv : v / base = 0 := Nat.div_eq_of_lt hless
      have hone : magnitude base v = [valueToChar base v] := by
        rw [magnitude, digits_of_lt hless]
        rfl
      rw [if_neg (not_not.mpr hdiv), hone, Nat.mod_eq_of_lt hless]
      simp
    · have hdiv : v / base ≠ 0 := (Nat.div_pos hmore (by omega)).ne'
      have hdigits : magnitude base v =
          magnitude base (v / base) ++ [valueToChar base (v % base)] := by
        rw [magnitude, digits_of_le hlow hmore, List.map_append]
        rfl
      have hrest : (magnitude base (v / base)).length ≤ last := by
        rw [hdigits, List.length_append, List.length_singleton] at hlength
        omega
      have hbuf : (buf.take last).length = last := List.length_take_of_le (Nat.le_of_succ_le hlast)
      rw [if_pos hdiv, toCharsIntGeneric_eq hlow hrest (by simp; omega), hdigits,
        List.length_append, List.length_singleton, List.take_append_of_le_length (by omega),
        List.drop_left' hbuf, List.take_take, Nat.min_eq_left (by omega),
        Nat.add_sub_add_right]
      simp only [List.append_assoc, List.singleton_append]

/-- Digits are written as characters that are read as these digits. -/
theorem isDigit_valueToChar (hbase : base ≤ 36) {d : ℕ} (hd : d < base) :
    IsDigit base (valueToChar base d) d := by
  unfold IsDigit valueToChar
  split <;> omega

theorem forall₂_magnitude (hlow : 2 ≤ base) (hbase : base ≤ 36) (v : ℕ) :
    List.Forall₂ (IsDigit base) (magnitude base v) (digits base v) := by
  rw [magnitude, List.forall₂_map_left_iff, List.forall₂_same]
  exact fun d hd => isDigit_valueToChar hbase (digits_lt hlow hd)

/-- **What was written is what is read**, up to a character that is not a digit. -/
theorem leadingDigits_magnitude (hlow : 2 ≤ base) (hbase : base ≤ 36) (v : ℕ) {rest : List ℤ}
    (hrest : ∀ c ∈ rest.head?, ∀ d, ¬ IsDigit base c d) :
    leadingDigits base (magnitude base v ++ rest) = digits base v := by
  have hvalid : ∀ d ∈ digits base v, charToValue (valueToChar base d) base = (true, (d : ℤ)) :=
    fun d hd => charToValue_of_isDigit hbase (isDigit_valueToChar hbase (digits_lt hlow hd))
  have hall : ∀ c ∈ magnitude base v, isDigit base c = true := by
    intro c hc
    obtain ⟨d, hd, rfl⟩ := List.mem_map.mp hc
    exact congrArg Prod.fst (hvalid d hd)
  have hstop : rest.takeWhile (isDigit base) = [] := by
    cases rest with
    | nil => rfl
    | cons c rest =>
      refine List.takeWhile_cons_of_neg fun h => hrest c rfl _ (isDigit_of_charToValue hbase h)
  have hread : (digits base v).map ((fun c => (charToValue c base).2.toNat) ∘ valueToChar base) =
      (digits base v).map id := by
    refine List.map_congr_left fun d hd => ?_
    rw [Function.comp_apply, hvalid d hd]
    rfl
  rw [leadingDigits, List.takeWhile_append_of_pos hall, hstop, List.append_nil, magnitude,
    List.map_map, hread, List.map_id]

/-! ## 4. Writing -/

/-- The canonical numeral of a number. -/
def canonical (base : ℕ) (v : ℤ) : List ℤ :=
  (if v < 0 then [45] else []) ++ magnitude base v.natAbs

theorem canonical_of_neg {v : ℤ} (hv : v < 0) : canonical base v = 45 :: magnitude base v.natAbs := by
  rw [canonical, if_pos hv]
  rfl

theorem canonical_of_nonneg {v : ℤ} (hv : 0 ≤ v) : canonical base v = magnitude base v.natAbs := by
  rw [canonical, if_neg (Int.not_lt.mpr hv)]
  rfl

theorem toCharsUnsigned_eq (hT : T.signed = false) (hlow : 2 ≤ base) (hbase : base ≤ 36) {v : ℕ}
    (hv : v < 2 ^ T.bits m) (hregular : ¬ (base = 10 ∧ LargestLong m T v)) {first : ℕ}
    {buf : List ℤ} (hfirst : first ≤ buf.length) : toCharsUnsigned m T first v base buf =
      if first + (magnitude base v).length ≤ buf.length then
        some (⟨first + (magnitude base v).length, .ok⟩,
          buf.take first ++ magnitude base v ++ buf.drop (first + (magnitude base v).length))
      else some (⟨buf.length, .valueTooLarge⟩, buf) := by
  unfold toCharsUnsigned
  rw [toCharsIntWidth_eq hT hlow hbase hv, decide_eq_false hregular, Bool.toNat_false, Nat.add_zero,
    ← length_magnitude]
  dsimp only
  by_cases hroom : first + (magnitude base v).length ≤ buf.length
  · rw [if_neg (by omega), if_pos hroom, toCharsIntGeneric_eq hlow (Nat.le_add_left _ _) hroom,
      Nat.add_sub_cancel]
    rfl
  · rw [if_pos (by omega), if_neg hroom]

theorem not_largestLong_of_signed (hsigned : T.signed = true) {v : ℤ} (hv : T.Has m v) :
    ¬ LargestLong m T.makeUnsigned v.natAbs := by
  rintro ⟨rfl, hlong, hmax⟩
  obtain ⟨rank, signed⟩ := T
  obtain rfl : signed = true := hsigned
  obtain rfl : rank = .long := congrArg IntegerType.rank hlong
  obtain ⟨hmin, hle⟩ := hv
  have hmin' : (-2147483648 : ℤ) ≤ v := hmin
  have hle' : v ≤ 2147483647 := hle
  omega

theorem natAbs_lt (v : ℤ) (hv : T.Has m v) : v.natAbs < 2 ^ T.makeUnsigned.bits m := by
  have hle := hv.natAbs_le
  rw [IntegerType.max_makeUnsigned] at hle
  have hpos : 0 < 2 ^ T.bits m := Nat.two_pow_pos _
  rw [IntegerType.bits_makeUnsigned]
  omega

/-- The numbers that are written right: all but one, and that one if there is no room for it. -/
def Regular (m : DataModel) (T : IntegerType) (value : ℤ) (base : ℕ) (buf : List ℤ) : Prop :=
  ¬ (m = .llp64 ∧ T = ⟨.long, false⟩ ∧ value = 2 ^ 32 - 1 ∧ base = 10 ∧ 10 ≤ buf.length)

instance (value : ℤ) (buf : List ℤ) : Decidable (Regular m T value base buf) :=
  inferInstanceAs (Decidable (¬ _))

/-- What `to_chars` should do. -/
structure Writes (m : DataModel) (T : IntegerType) (value : ℤ) (base : ℕ) (buf : List ℤ) : Prop where
  fits : (canonical base value).length ≤ buf.length → toChars m T value base buf =
    some (⟨(canonical base value).length, .ok⟩,
      canonical base value ++ buf.drop (canonical base value).length)
  tooLarge : buf.length < (canonical base value).length → ∃ buf', buf'.length = buf.length ∧
    toChars m T value base buf = some (⟨buf.length, .valueTooLarge⟩, buf')

theorem toChars_unsigned (hT : T.signed = false) (hlow : 2 ≤ base) (hbase : base ≤ 36) {v : ℤ}
    (hv : T.Has m v) (hregular : ¬ (base = 10 ∧ LargestLong m T v.natAbs)) (buf : List ℤ) :
    Writes m T v base buf := by
  have hpos : 0 ≤ v := by
    have hmin := hv.1
    rwa [IntegerType.min, if_neg (by rw [hT]; decide)] at hmin
  have hnat : v.toNat = v.natAbs := by omega
  have heq : toChars m T v base buf = toCharsUnsigned m T 0 v.natAbs base buf := by
    rw [toChars, if_neg (by rw [hT]; decide), hnat]
  have hlt : v.natAbs < 2 ^ T.bits m := natAbs_lt v hv
  have hwrite := toCharsUnsigned_eq hT hlow hbase hlt hregular (Nat.zero_le buf.length)
  rw [Nat.zero_add, List.take_zero, List.nil_append, ← canonical_of_nonneg hpos, ← heq] at hwrite
  constructor
  · intro h
    rw [hwrite, if_pos h]
  · intro h
    exact ⟨buf, rfl, by rw [hwrite, if_neg (Nat.not_le.mpr h)]⟩

theorem toChars_signed (hT : T.signed = true) (hlow : 2 ≤ base) (hbase : base ≤ 36) {v : ℤ}
    (hv : T.Has m v) (buf : List ℤ) : Writes m T v base buf := by
  have hregular : ¬ (base = 10 ∧ LargestLong m T.makeUnsigned v.natAbs) :=
    fun h => not_largestLong_of_signed hT hv h.2
  have hwrite := @toCharsUnsigned_eq m T.makeUnsigned base rfl hlow hbase _ (natAbs_lt v hv) hregular
  have htoChars : toChars m T v base buf = if v < 0 ∧ 0 < buf.length then
      (store buf 0 45).bind (toCharsUnsigned m T.makeUnsigned 1 v.natAbs base)
      else toCharsUnsigned m T.makeUnsigned 0 v.natAbs base buf := by
    rw [toChars, if_pos hT, uabs_eq hv, Int.toNat_natCast]
  by_cases hneg : v < 0
  · rcases buf with _ | ⟨c, buf⟩
    · have hdigits : (canonical base v).length = (magnitude base v.natAbs).length + 1 := by
        rw [canonical_of_neg hneg, List.length_cons]
      refine ⟨fun h => ?_, fun _ => ⟨[], rfl, ?_⟩⟩
      · rw [hdigits, List.length_nil] at h
        omega
      · have hlen : (magnitude base v.natAbs).length ≠ 0 := by
          rw [length_magnitude]
          exact fun h => digits_ne_nil _ (List.length_eq_zero_iff.mp h)
        rw [htoChars, if_neg (by simp), hwrite (Nat.zero_le _), if_neg]
        simp only [List.length_nil]
        omega
    · have hstore : store (c :: buf) 0 45 = some (45 :: buf) := rfl
      have hsum : (canonical base v).length = 1 + (magnitude base v.natAbs).length := by
        rw [canonical_of_neg hneg, List.length_cons, Nat.add_comm]
      have hlength : (45 :: buf : List ℤ).length = (c :: buf).length := rfl
      rw [if_pos ⟨hneg, Nat.succ_pos _⟩, hstore, Option.bind_some, hwrite (by simp), ← hsum, hlength]
        at htoChars
      refine ⟨fun h => ?_, fun h => ⟨45 :: buf, rfl, ?_⟩⟩
      · rw [htoChars, if_pos h, hsum, canonical_of_neg hneg, Nat.add_comm 1]
        rfl
      · rw [htoChars, if_neg (Nat.not_le.mpr h)]
  · rw [if_neg (fun h => hneg h.1), hwrite (Nat.zero_le _), Nat.zero_add, List.take_zero,
      List.nil_append, ← canonical_of_nonneg (Int.not_lt.mp hneg)] at htoChars
    constructor
    · intro h
      rw [htoChars, if_pos h]
    · intro h
      exact ⟨buf, rfl, by rw [htoChars, if_neg (Nat.not_le.mpr h)]⟩

/-! ## 5. Reading back -/

/-- The canonical numeral is read, up to a character that is not a digit. -/
theorem fromChars_canonical (hT : Supported hasInt128 T) (hlow : 2 ≤ base) (hbase : base ≤ 36)
    {v : ℤ} (hv : T.Has m v) {rest : List ℤ} (hrest : ∀ c ∈ rest.head?, ∀ d, ¬ IsDigit base c d)
    (old : ℤ) : fromChars m hasInt128 T (canonical base v ++ rest) old base =
      (⟨(canonical base v).length, .ok⟩, v) := by
  have hread := leadingDigits_magnitude hlow hbase v.natAbs hrest
  have hne : magnitude base v.natAbs ≠ [] := by
    rw [← List.length_pos_iff, length_magnitude, List.length_pos_iff]
    exact digits_ne_nil _
  have hhead := isDigit_head hne (forall₂_magnitude hlow hbase v.natAbs)
  rw [fromChars_eq hT (by omega) hbase, outcome]
  by_cases hneg : v < 0
  · have hsigned : T.signed = true := by
      by_contra hunsigned
      have hmin := hv.1
      rw [IntegerType.min, if_neg hunsigned] at hmin
      omega
    have hminus : hasMinus T (canonical base v ++ rest) = true := by
      rw [hasMinus, hsigned, canonical_of_neg hneg]
      rfl
    have hdigits : numeralDigits T base (canonical base v ++ rest) = digits base v.natAbs := by
      rw [numeralDigits, hminus, canonical_of_neg hneg]
      exact hread
    have hdenoted : denoted T base (canonical base v ++ rest) = v := by
      rw [denoted, hminus, if_pos rfl, hdigits, value_digits]
      omega
    rw [hdenoted, hdigits, hminus, if_neg (digits_ne_nil _), if_pos hv, canonical_of_neg hneg,
      List.length_cons, length_magnitude, Bool.toNat_true, Nat.add_comm]
  · have hcanonical : canonical base v = _ := canonical_of_nonneg (Int.not_lt.mp hneg)
    have hminus : hasMinus T (canonical base v ++ rest) = false := by
      rw [hasMinus, hcanonical, List.head?_append_of_ne_nil _ hne, decide_eq_false hhead,
        Bool.and_false]
    have hdigits : numeralDigits T base (canonical base v ++ rest) = digits base v.natAbs := by
      rw [numeralDigits, hminus, hcanonical]
      exact hread
    have hdenoted : denoted T base (canonical base v ++ rest) = v := by
      rw [denoted, hminus, if_neg Bool.false_ne_true, hdigits, value_digits]
      omega
    rw [hdenoted, hdigits, hminus, if_neg (digits_ne_nil _), if_pos hv, hcanonical,
      length_magnitude, Bool.toNat_false, Nat.zero_add]

/-- Writing does what it should, and what was written is read back. -/
structure RoundTrips (m : DataModel) (hasInt128 : Bool) (T : IntegerType) (value : ℤ) (base : ℕ)
    (buf : List ℤ) : Prop where
  writes : Writes m T value base buf
  reads : ∀ {r : ToCharsResult} {buf' : List ℤ}, toChars m T value base buf = some (r, buf') →
    r.ec = .ok → ∀ {rest : List ℤ}, (∀ c ∈ rest.head?, ∀ d, ¬ IsDigit base c d) → ∀ old,
      fromChars m hasInt128 T (buf'.take r.ptr ++ rest) old base = (⟨r.ptr, .ok⟩, value)

/-- One character too many is asked for, or one too many is returned. -/
theorem not_writes_of_width {buf : List ℤ} {v : ℤ} (hT : T.signed = false)
    (hwidth : toCharsIntWidth m T v.toNat base = (canonical base v).length + 1)
    (hroom : (canonical base v).length ≤ buf.length) : ¬ Writes m T v base buf := by
  intro h
  have hfits := h.fits hroom
  rw [toChars, if_neg (by rw [hT]; decide), toCharsUnsigned, hwidth] at hfits
  split at hfits
  · simp at hfits
  · rw [Nat.zero_add] at hfits
    obtain ⟨buf', -, hbuf'⟩ := Option.map_eq_some_iff.mp hfits
    have hptr : (canonical base v).length + 1 = (canonical base v).length :=
      congrArg (fun r => r.1.ptr) hbuf'
    omega

theorem length_largestLong : (canonical 10 (2 ^ 32 - 1)).length = 10 := by
  have hlog : Nat.log 10 (2 ^ 32 - 1) = 9 := Nat.log_eq_of_pow_le_of_lt_pow (by decide) (by decide)
  rw [canonical_of_nonneg (by decide), length_magnitude]
  exact (length_digits (by decide) _).trans (congrArg (· + 1) hlog)

/-- **Exactly the regular numbers** make the round trip. -/
theorem roundTrips_iff_regular (hT : Supported hasInt128 T) (hlow : 2 ≤ base) (hbase : base ≤ 36)
    {v : ℤ} (hv : T.Has m v) (buf : List ℤ) :
    RoundTrips m hasInt128 T v base buf ↔ Regular m T v base buf := by
  constructor
  · rintro ⟨hwrites, -⟩ ⟨rfl, rfl, rfl, rfl, hroom⟩
    refine not_writes_of_width rfl ?_ (length_largestLong ▸ hroom) hwrites
    rw [length_largestLong]
    decide
  · intro hregular
    have hwrites : Writes m T v base buf := by
      cases hsigned : T.signed with
      | true => exact toChars_signed hsigned hlow hbase hv buf
      | false =>
        have hpos : 0 ≤ v := by
          have hmin := hv.1
          rwa [IntegerType.min, if_neg (by rw [hsigned]; decide)] at hmin
        by_cases hlarge : base = 10 ∧ LargestLong m T v.natAbs
        · obtain ⟨rfl, rfl, rfl, hmax⟩ := hlarge
          obtain rfl : v = 2 ^ 32 - 1 := by omega
          have hroom : buf.length < (canonical 10 (2 ^ 32 - 1)).length := by
            rw [length_largestLong]
            exact Nat.not_le.mp fun h => hregular ⟨rfl, rfl, rfl, rfl, h⟩
          refine ⟨fun h => absurd hroom (Nat.not_lt.mpr h), fun _ => ⟨buf, rfl, ?_⟩⟩
          have hwidth : toCharsIntWidth .llp64 ⟨.long, false⟩ (2 ^ 32 - 1 : ℤ).toNat 10 = 11 := by
            decide
          rw [length_largestLong] at hroom
          rw [toChars, if_neg (by decide), toCharsUnsigned, hwidth]
          exact if_pos (by omega)
        · exact toChars_unsigned hsigned hlow hbase hv hlarge buf
    refine ⟨hwrites, fun hwritten hok rest hrest old => ?_⟩
    rcases Nat.lt_or_ge buf.length (canonical base v).length with hshort | hroom
    · obtain ⟨buf', -, hfail⟩ := hwrites.tooLarge hshort
      rw [hfail] at hwritten
      obtain ⟨rfl, rfl⟩ := Prod.mk.inj (Option.some.inj hwritten)
      exact absurd hok (by simp)
    · rw [hwrites.fits hroom] at hwritten
      obtain ⟨rfl, rfl⟩ := Prod.mk.inj (Option.some.inj hwritten)
      rw [List.take_left]
      exact fromChars_canonical hT hlow hbase hv hrest old

/-- The least number of 16 bits, in base 36. -/
theorem roundTrips_short_min :
    RoundTrips .lp64 true ⟨.short, true⟩ (-32768) 36 (List.replicate 8 0) :=
  (roundTrips_iff_regular (by decide) (by decide) (by decide) (by decide) _).mpr (by decide)

/-- The largest number of a 32-bit `unsigned long` is not written to a range of its length. -/
theorem not_roundTrips_ulong_max : IntegerType.Has .llp64 ⟨.long, false⟩ 4294967295 ∧
    (canonical 10 4294967295).length = 10 ∧
    ¬ RoundTrips .llp64 true ⟨.long, false⟩ 4294967295 10 (List.replicate 10 0) := by
  refine ⟨by decide, length_largestLong, fun h => ?_⟩
  have hwidth : toCharsIntWidth .llp64 ⟨.long, false⟩ (4294967295 : ℤ).toNat 10 =
      (canonical 10 (2 ^ 32 - 1)).length + 1 := by
    rw [length_largestLong]
    decide
  exact not_writes_of_width rfl hwidth (length_largestLong ▸ by decide) h.writes

end Cccl.Charconv
