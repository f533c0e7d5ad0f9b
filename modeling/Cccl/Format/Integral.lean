/-
# Writing a value

A value is written into a small buffer: its sign, its prefix and its digits.  It is padded to the width with the fill
character; with zero padding, the sign and the prefix go out first and zeros take the place of the fill character.

The buffer is large enough for each base (`length_le_intBufferSize`), so that writing never fails but for a number that
is no character.
-/
import Cccl.Charconv.ToChars
import Cccl.Format.Arguments

namespace Cccl.Format

open IntegerTypes

/-! ## 1. Padding -/

/-- `__fmt_padding_size`. -/
def paddingSize (size width : ℕ) (align : Alignment) : Except Failure (ℕ × ℕ) :=
  let fill := width - size
  match align with
  | .left => pure (0, fill)
  | .center =>
    let before := fill / 2
    pure (before, fill - before)
  | .default | .right => pure (fill, 0)
  | .zeroPadding => throw .unreachable

/-- `__fmt_write`, for characters that take so much room. -/
def fmtWrite (str : List ℤ) (specs : ParsedSpec) (size : ℕ) : Except Failure (List ℤ) :=
  if specs.width ≤ size then pure str
  else do
    let padding ← paddingSize size specs.width specs.alignment
    pure (List.replicate padding.1 specs.fill ++ str ++ List.replicate padding.2 specs.fill)

/-- `__fmt_hex_to_upper`. -/
def hexToUpper (c : ℤ) : ℤ := if code 'a' ≤ c ∧ c ≤ code 'f' then c - code 'a' + code 'A' else c

def fmtWriteTransformed (str : List ℤ) (specs : ParsedSpec) (op : ℤ → ℤ) : Except Failure (List ℤ) :=
  fmtWrite (str.map op) specs str.length

def fmtWriteString (str : List ℤ) (specs : ParsedSpec) : Except Failure (List ℤ) :=
  if specs.precision < 0 then
    if specs.width = 0 then pure str else fmtWrite str specs (min str.length specs.width)
  else
    let size := min str.length specs.precision.toNat
    fmtWrite (str.take size) specs size

/-! ## 2. Characters, integers and truth values -/

/-- `__fmt_format_char`, of a character or of an integer. -/
def formatChar (m : DataModel) (C : IntegerType) (isCharT : Bool) (value : ℤ) (specs : ParsedSpec) :
    Except Failure (List ℤ) :=
  if ¬ isCharT ∧ ¬ C.Has m value then throw (.throws .outsideChar)
  else fmtWrite [C.staticCast m value] specs 1

/-- `__fmt_int_buffer_size_v`, for an unsigned type with so many digits. -/
def intBufferSize (digits base : ℕ) : ℕ :=
  if base = 2 then digits + 2 + 1
  else if base = 8 then digits / 3 + 1 + 1 + 1
  else if base = 10 then digits * 3 / 10 + 1 + 1
  else if base = 16 then digits / 4 + 2 + 1
  else 0

/-- `__fmt_insert_sign`. -/
def insertSign (negative : Bool) (sign : Sign) : List ℤ :=
  if negative then [code '-']
  else
    match sign with
    | .default | .minus => []
    | .plus => [code '+']
    | .space => [code ' ']

/-- `__fmt_format_int_impl`, for an unsigned type. -/
def formatIntImpl (m : DataModel) (T : IntegerType) (base : ℕ) (value : ℤ) (specs : ParsedSpec) (negative : Bool)
    (pre : List ℤ) : Except Failure (List ℤ) := do
  let first := insertSign negative specs.sign ++ if specs.alternateForm then pre else []
  let size := intBufferSize (T.digits m) base
  let digits ←
    match Charconv.toChars m T value base (List.replicate (size - first.length) 0) with
    | some (r, buf) => if r.ec = .ok then pure (buf.take r.ptr) else throw .assertion
    | none => throw .assertion
  if specs.alignment ≠ .zeroPadding then
    if specs.type ≠ .hexadecimalUpperCase then fmtWrite (first ++ digits) specs (first ++ digits).length
    else fmtWriteTransformed (first ++ digits) specs hexToUpper
  else
    let specs := { specs with
      alignment := .right, fill := code '0', width := specs.width - min first.length specs.width }
    let rest ←
      if specs.type ≠ .hexadecimalUpperCase then fmtWrite digits specs digits.length
      else fmtWriteTransformed digits specs hexToUpper
    pure (first ++ rest)

/-- `__fmt_format_int` of an unsigned type. -/
def formatUnsigned (m : DataModel) (T : IntegerType) (value : ℤ) (specs : ParsedSpec) (negative : Bool) :
    Except Failure (List ℤ) :=
  match specs.type with
  | .binaryLowerCase => formatIntImpl m T 2 value specs negative [code '0', code 'b']
  | .binaryUpperCase => formatIntImpl m T 2 value specs negative [code '0', code 'B']
  | .octal => formatIntImpl m T 8 value specs negative (if value ≠ 0 then [code '0'] else [])
  | .default | .decimal => formatIntImpl m T 10 value specs negative []
  | .hexadecimalLowerCase => formatIntImpl m T 16 value specs negative [code '0', code 'x']
  | .hexadecimalUpperCase => formatIntImpl m T 16 value specs negative [code '0', code 'X']
  | _ => throw .unreachable

/-- `__fmt_format_int`. -/
def formatInt (m : DataModel) (T : IntegerType) (value : ℤ) (specs : ParsedSpec) : Except Failure (List ℤ) :=
  if T.signed then formatUnsigned m T.makeUnsigned (Cmath.uabs m T value) specs (value < 0)
  else formatUnsigned m T value specs false

/-- `__fmt_format_bool`. -/
def formatBool (value : Bool) (specs : ParsedSpec) : Except Failure (List ℤ) :=
  let str := if value then "true".toList.map code else "false".toList.map code
  fmtWrite str specs str.length

/-! ## 3. The formatters -/

/-- The formatter of an integer: narrow types are widened to 32 bits. -/
def formatInteger (m : DataModel) (C T : IntegerType) (args : List FormatArg) (value : ℤ) (p : SpecParser) :
    Except Failure (List ℤ) := do
  let specs ← p.getParsedStdSpec args
  if specs.type = .char then formatChar m C false value specs
  else
    let U := IntegerType.ofBits (max (T.bits m) 32) T.signed
    formatInt m U (U.staticCast m value) specs

/-- `format` of the formatter that belongs to a stored type. -/
def formatArg (m : DataModel) (C : IntegerType) (args : List FormatArg) (arg : FormatArg) (p : SpecParser) :
    Except Failure (List ℤ) :=
  match arg with
  | .none => throw (.throws .argIndexTooLarge)
  | .boolean b =>
    if p.type = .default ∨ p.type = .string then do
      let specs ← p.getParsedStdSpec args
      formatBool b specs
    else if SpecParser.isInteger p.type then do
      let specs ← p.getParsedStdSpec args
      formatInt m ⟨.int, false⟩ b.toNat specs
    else throw .unreachable
  | .charType c => do
    let specs ← p.getParsedStdSpec args
    if p.type = .default ∨ p.type = .char then formatChar m C true c specs
    else formatInt m ⟨.int, false⟩ (IntegerType.staticCast m ⟨.int, false⟩ (C.makeUnsigned.staticCast m c)) specs
  | .int v => formatInteger m C ⟨.int, true⟩ args v p
  | .unsigned v => formatInteger m C ⟨.int, false⟩ args v p
  | .longLong v => formatInteger m C ⟨.longLong, true⟩ args v p
  | .unsignedLongLong v => formatInteger m C ⟨.longLong, false⟩ args v p
  | .handle T v => formatInteger m C T args v p
  | .constCharTypePtr s | .stringView s => do
    let specs ← p.getParsedStdSpec args
    fmtWriteString s specs

/-! ## 4. Nothing fails -/

variable {m : DataModel} {C T : IntegerType}

theorem fmtWrite_ok (str : List ℤ) (specs : ParsedSpec) (size : ℕ) (halign : specs.alignment ≠ .zeroPadding) :
    ∃ out, fmtWrite str specs size = .ok out := by
  obtain ⟨r, hr⟩ : ∃ r, paddingSize size specs.width specs.alignment = .ok r := by
    unfold paddingSize
    cases h : specs.alignment with
    | zeroPadding => exact absurd h halign
    | _ => exact ⟨_, rfl⟩
  unfold fmtWrite
  split
  · exact ⟨str, rfl⟩
  · exact ⟨_, by rw [hr]; rfl⟩

/-- A base that integers are written in, and the length of its longest prefix. -/
inductive BasePrefix : ℕ → ℕ → Prop
  | binary : BasePrefix 2 2
  | octal : BasePrefix 8 1
  | decimal : BasePrefix 10 0
  | hexadecimal : BasePrefix 16 2

/-- **The buffer is large enough** for a sign, a prefix and the digits. -/
theorem length_le_intBufferSize {base n : ℕ} (h : BasePrefix base n) (hT : T.signed = false) (hbits : 32 ≤ T.bits m)
    {v : ℤ} (hv : T.Has m v) :
    1 + n + (Charconv.canonical base v).length ≤ intBufferSize (T.digits m) base := by
  have hpos : 0 ≤ v := by
    have hmin := hv.1
    rwa [IntegerType.min, if_neg (by rw [hT]; decide)] at hmin
  have hlt : v.natAbs < 2 ^ T.bits m := Charconv.natAbs_lt v hv
  have hlog : ∀ k, 0 < k → 2 ^ T.bits m ≤ base ^ k → (Charconv.canonical base v).length ≤ k := by
    intro k hk hpow
    have hlow : 2 ≤ base := by cases h <;> decide
    rw [Charconv.canonical_of_nonneg hpos, Charconv.length_magnitude, Numeral.length_digits hlow]
    exact Nat.log_lt_of_lt_pow' hk.ne' (Nat.lt_of_lt_of_le hlt hpow)
  rw [IntegerType.digits_of_unsigned hT]
  have hcases : T.bits m = 32 ∨ T.bits m = 64 ∨ T.bits m = 128 := by
    change 32 ≤ T.rank.bits m at hbits
    change T.rank.bits m = 32 ∨ T.rank.bits m = 64 ∨ T.rank.bits m = 128
    revert hbits
    cases m <;> cases T.rank <;> decide
  rcases hcases with hb | hb | hb <;> rw [hb] at hlog ⊢ <;> cases h
  · exact Nat.add_le_add_left (hlog 32 (by decide) (by decide)) 3
  · exact Nat.add_le_add_left (hlog 11 (by decide) (by decide)) 2
  · exact Nat.add_le_add_left (hlog 10 (by decide) (by decide)) 1
  · exact Nat.add_le_add_left (hlog 8 (by decide) (by decide)) 3
  · exact Nat.add_le_add_left (hlog 64 (by decide) (by decide)) 3
  · exact Nat.add_le_add_left (hlog 22 (by decide) (by decide)) 2
  · exact Nat.add_le_add_left (hlog 20 (by decide) (by decide)) 1
  · exact Nat.add_le_add_left (hlog 16 (by decide) (by decide)) 3
  · exact Nat.add_le_add_left (hlog 128 (by decide) (by decide)) 3
  · exact Nat.add_le_add_left (hlog 43 (by decide) (by decide)) 2
  · exact Nat.add_le_add_left (hlog 39 (by decide) (by decide)) 1
  · exact Nat.add_le_add_left (hlog 32 (by decide) (by decide)) 3

theorem length_insertSign (negative : Bool) (sign : Sign) : (insertSign negative sign).length ≤ 1 := by
  cases negative <;> cases sign <;> decide

/-- The types that `__fmt_format_int` is called with. -/
structure Written (m : DataModel) (T : IntegerType) : Prop where
  unsigned : T.signed = false
  bits : 32 ≤ T.bits m
  rank : T.rank ≠ .long

theorem formatIntImpl_ok (hT : Written m T) {base n : ℕ} (hbase : BasePrefix base n) {v : ℤ} (hv : T.Has m v)
    (specs : ParsedSpec) (negative : Bool) {pre : List ℤ} (hpre : pre.length ≤ n) :
    ∃ out, formatIntImpl m T base v specs negative pre = .ok out := by
  have hlow : 2 ≤ base := by cases hbase <;> decide
  have hle : base ≤ 36 := by cases hbase <;> decide
  have hregular : ¬ (base = 10 ∧ Cmath.LargestLong m T v.natAbs) := by
    rintro ⟨-, -, rfl, -⟩
    exact hT.rank rfl
  have hfirst : (insertSign negative specs.sign ++ if specs.alternateForm then pre else []).length ≤ 1 + n := by
    have hsign := length_insertSign negative specs.sign
    rw [List.length_append]
    split
    · exact Nat.add_le_add hsign hpre
    · exact Nat.add_le_add hsign (Nat.zero_le n)
  have hroom := length_le_intBufferSize hbase hT.unsigned hT.bits hv
  have hwrite := (Charconv.toChars_unsigned hT.unsigned hlow hle hv hregular
    (List.replicate (intBufferSize (T.digits m) base -
      (insertSign negative specs.sign ++ if specs.alternateForm then pre else []).length) 0)).fits
    (by rw [List.length_replicate]; omega)
  unfold formatIntImpl
  simp only [hwrite, if_true]
  refine exists_bind_eq_ok ⟨_, rfl⟩ fun digits => ?_
  split
  · rename_i halign
    split
    · exact fmtWrite_ok _ _ _ halign
    · exact fmtWrite_ok _ _ _ halign
  · -- the zeros go out as a fill character, on the left
    split
    · exact exists_bind_eq_ok (fmtWrite_ok _ _ _ nofun) fun rest => ⟨_, rfl⟩
    · exact exists_bind_eq_ok (fmtWrite_ok _ _ _ nofun) fun rest => ⟨_, rfl⟩

theorem formatUnsigned_ok (hT : Written m T) {v : ℤ} (hv : T.Has m v) {specs : ParsedSpec}
    (htype : specs.type = .default ∨ SpecParser.isInteger specs.type = true) (negative : Bool) :
    ∃ out, formatUnsigned m T v specs negative = .ok out := by
  unfold formatUnsigned
  cases h : specs.type with
  | binaryLowerCase | binaryUpperCase => exact formatIntImpl_ok hT .binary hv specs negative (Nat.le_refl _)
  | octal =>
    refine formatIntImpl_ok hT .octal hv specs negative ?_
    split
    · exact Nat.le_refl _
    · exact Nat.zero_le _
  | default | decimal => exact formatIntImpl_ok hT .decimal hv specs negative (Nat.le_refl _)
  | hexadecimalLowerCase | hexadecimalUpperCase =>
    exact formatIntImpl_ok hT .hexadecimal hv specs negative (Nat.le_refl _)
  | _ =>
    rw [h] at htype
    exact absurd htype (by decide)

theorem formatInt_ok (hbits : 32 ≤ T.bits m) (hrank : T.rank ≠ .long) {v : ℤ} (hv : T.Has m v) {specs : ParsedSpec}
    (htype : specs.type = .default ∨ SpecParser.isInteger specs.type = true) :
    ∃ out, formatInt m T v specs = .ok out := by
  unfold formatInt
  split
  · have hT : Written m T.makeUnsigned := ⟨rfl, hbits, hrank⟩
    refine formatUnsigned_ok hT ?_ htype _
    rw [Cmath.uabs_eq hv]
    exact IntegerType.has_of_le hv.natAbs_le
  · rename_i hunsigned
    exact formatUnsigned_ok ⟨Bool.eq_false_iff.mpr hunsigned, hbits, hrank⟩ hv htype _

theorem formatBool_ok (b : Bool) {specs : ParsedSpec} (halign : specs.alignment ≠ .zeroPadding) :
    ∃ out, formatBool b specs = .ok out :=
  fmtWrite_ok _ _ _ halign

theorem fmtWriteString_ok (str : List ℤ) {specs : ParsedSpec} (halign : specs.alignment ≠ .zeroPadding) :
    ∃ out, fmtWriteString str specs = .ok out := by
  unfold fmtWriteString
  split
  · split
    · exact ⟨str, rfl⟩
    · exact fmtWrite_ok _ _ _ halign
  · exact fmtWrite_ok _ _ _ halign

theorem formatChar_ok {isCharT : Bool} {value : ℤ} {specs : ParsedSpec} (h : isCharT = true ∨ C.Has m value)
    (halign : specs.alignment ≠ .zeroPadding) : ∃ out, formatChar m C isCharT value specs = .ok out := by
  unfold formatChar
  rw [if_neg fun hnot => h.elim hnot.1 hnot.2]
  exact fmtWrite_ok _ _ _ halign

end Cccl.Format
