/-
# `__fmt_spec_parser`

A format specification is read by optional steps in a fixed order.  Each step looks at the next character: if its
option is there, it is taken.  Zero padding is an alignment that one which is written out overrides.

A field that an argument type does not have is left out, so that the next step finds a character that it does not
know; in a constant expression it is looked for, for the sake of a better error.  Both ways the specification is
rejected.
-/
import Cccl.Format.ParseContext

namespace Cccl.Format

/-! ## 1. The data -/

/-- `__fmt_spec_fields`: which elements are parsed. -/
structure SpecFields where
  sign : Bool := false
  alternateForm : Bool := false
  zeroPadding : Bool := false
  precision : Bool := false
  localeSpecificForm : Bool := false
  type : Bool := false
  useRangeFill : Bool := false
  clearBrackets : Bool := false
  consumeAll : Bool := false

namespace SpecFields

/-- `__fmt_spec_fields_bool`. -/
def bool : SpecFields := { localeSpecificForm := true, type := true, consumeAll := true }

/-- `__fmt_spec_fields_int`. -/
def int : SpecFields :=
  { sign := true, alternateForm := true, zeroPadding := true, localeSpecificForm := true, type := true,
    consumeAll := true }

/-- `__fmt_spec_fields_str`. -/
def str : SpecFields := { precision := true, type := true, consumeAll := true }

end SpecFields

inductive Alignment
  | default
  | left
  | center
  | right
  | zeroPadding
  deriving DecidableEq

inductive Sign
  | default
  | minus
  | plus
  | space
  deriving DecidableEq

inductive SpecType
  | default
  | string
  | binaryLowerCase
  | binaryUpperCase
  | octal
  | decimal
  | hexadecimalLowerCase
  | hexadecimalUpperCase
  | pointerLowerCase
  | pointerUpperCase
  | char
  | hexfloatLowerCase
  | hexfloatUpperCase
  | scientificLowerCase
  | scientificUpperCase
  | fixedLowerCase
  | fixedUpperCase
  | generalLowerCase
  | generalUpperCase
  deriving DecidableEq

/-- The members of `__fmt_spec_parser` that are not for dates. -/
structure SpecParser where
  alignment : Alignment
  sign : Sign
  alternateForm : Bool
  localeSpecificForm : Bool
  clearBrackets : Bool
  type : SpecType
  widthAsArg : Bool
  precisionAsArg : Bool
  width : ℕ
  precision : ℤ
  fill : ℤ
  deriving DecidableEq

/-- The constructor. -/
def SpecParser.initial : SpecParser where
  alignment := .default
  sign := .default
  alternateForm := false
  localeSpecificForm := false
  clearBrackets := false
  type := .default
  widthAsArg := false
  precisionAsArg := false
  width := 0
  precision := -1
  fill := code ' '

/-- The parser, the iterator and the context. -/
structure ParseState where
  parser : SpecParser
  begin : List ℤ
  ctx : ParseContext
  deriving DecidableEq

/-! ## 2. The steps -/

/-- `__parse_alignment`. -/
def alignmentOf (c : ℤ) : Option Alignment :=
  if c = code '<' then some .left
  else if c = code '^' then some .center
  else if c = code '>' then some .right
  else none

/-- The characters of `__parse_sign`. -/
def signOf (c : ℤ) : Option Sign :=
  if c = code '-' then some .minus
  else if c = code '+' then some .plus
  else if c = code ' ' then some .space
  else none

/-- The characters of `__parse_type`. -/
def typeOf (c : ℤ) : Option SpecType :=
  if c = code 'A' then some .hexfloatUpperCase
  else if c = code 'B' then some .binaryUpperCase
  else if c = code 'E' then some .scientificUpperCase
  else if c = code 'F' then some .fixedUpperCase
  else if c = code 'G' then some .generalUpperCase
  else if c = code 'X' then some .hexadecimalUpperCase
  else if c = code 'a' then some .hexfloatLowerCase
  else if c = code 'b' then some .binaryLowerCase
  else if c = code 'c' then some .char
  else if c = code 'd' then some .decimal
  else if c = code 'e' then some .scientificLowerCase
  else if c = code 'f' then some .fixedLowerCase
  else if c = code 'g' then some .generalLowerCase
  else if c = code 'o' then some .octal
  else if c = code 'p' then some .pointerLowerCase
  else if c = code 'P' then some .pointerUpperCase
  else if c = code 's' then some .string
  else if c = code 'x' then some .hexadecimalLowerCase
  else none

namespace ParseState

/-- An alignment without a fill character. -/
def parseAlignment (st : ParseState) : Except Failure (Bool × ParseState) := do
  let c ← deref st.begin
  match alignmentOf c with
  | some alignment => pure (true, { st with parser.alignment := alignment, begin := st.begin.tail })
  | none => pure (false, st)

def parseFillAlign (st : ParseState) : Except Failure (Bool × ParseState) :=
  match st.begin with
  | fill :: c :: rest =>
    match alignmentOf c with
    | some alignment =>
      if fill = code '{' then throw (.throws .fillInvalid)
      else pure (true, { st with parser.alignment := alignment, parser.fill := fill, begin := rest })
    | none => st.parseAlignment
  | _ => st.parseAlignment

def parseSign (st : ParseState) : Except Failure (Bool × ParseState) := do
  let c ← deref st.begin
  match signOf c with
  | some sign => pure (true, { st with parser.sign := sign, begin := st.begin.tail })
  | none => pure (false, st)

/-- A step for an option of one character. -/
def parseFlag (flag : Char) (set : SpecParser → SpecParser) (st : ParseState) : Except Failure (Bool × ParseState) := do
  let c ← deref st.begin
  if c ≠ code flag then pure (false, st)
  else pure (true, { st with parser := set st.parser, begin := st.begin.tail })

def parseAlternateForm : ParseState → Except Failure (Bool × ParseState) :=
  parseFlag '#' fun p => { p with alternateForm := true }

def parseZeroPadding : ParseState → Except Failure (Bool × ParseState) :=
  parseFlag '0' fun p => if p.alignment = .default then { p with alignment := .zeroPadding } else p

def parseLocaleSpecificForm : ParseState → Except Failure (Bool × ParseState) :=
  parseFlag 'L' fun p => { p with localeSpecificForm := true }

def parseClearBrackets : ParseState → Except Failure (Bool × ParseState) :=
  parseFlag 'n' fun p => { p with clearBrackets := true }

/-- `__parse_arg_id` of the parser: the argument of a width or a precision. -/
def parseNestedArgId (mode : Mode) (s : List ℤ) (ctx : ParseContext) : Except Failure (ℕ × List ℤ × ParseContext) := do
  if s = [] then throw (.throws .endInArgIndex)
  let (value, last, ctx) ← parseArgId mode s ctx
  match last with
  | [] => throw (.throws .argIndexInvalid)
  | c :: rest => if c ≠ code '}' then throw (.throws .argIndexInvalid) else pure (value, rest, ctx)

def parseWidth (mode : Mode) (st : ParseState) : Except Failure (Bool × ParseState) := do
  let c ← deref st.begin
  if c = code '0' then throw (.throws .widthLeadingZero)
  else if c = code '{' then
    let (value, rest, ctx) ← parseNestedArgId mode st.begin.tail st.ctx
    pure (true, { parser := { st.parser with widthAsArg := true, width := value }, begin := rest, ctx := ctx })
  else if ¬ IsDigit c then pure (false, st)
  else
    let (value, rest) ← parseNumber st.begin
    pure (true, { st with parser.width := value, begin := rest })

def parsePrecision (mode : Mode) (st : ParseState) : Except Failure (Bool × ParseState) := do
  let c ← deref st.begin
  if c ≠ code '.' then pure (false, st)
  else
    match st.begin.tail with
    | [] => throw (.throws .endInPrecision)
    | d :: rest =>
      if d = code '{' then
        let (value, rest, ctx) ← parseNestedArgId mode rest st.ctx
        pure (true, { parser := { st.parser with precisionAsArg := true, precision := value }, begin := rest, ctx := ctx })
      else if ¬ IsDigit d then throw (.throws .precisionInvalid)
      else
        let (value, rest) ← parseNumber (d :: rest)
        pure (true, { st with
          parser := { st.parser with precision := value, precisionAsArg := false }, begin := rest })

def parseType (st : ParseState) : Except Failure ParseState := do
  let c ← deref st.begin
  match typeOf c with
  | some type => pure { st with parser.type := type, begin := st.begin.tail }
  | none => pure st

/-! ## 3. The parser -/

/-- A field: whether it is allowed, what is thrown if it is there and is not, and its step. -/
structure Field where
  allowed : Bool
  error : FormatError
  step : ParseState → Except Failure (Bool × ParseState)

/-- The step of a field, and what comes after it.  A field that is not allowed is looked for in strict mode only. -/
def parseField (strict : Bool) (f : Field) (next : ParseState → Except Failure ParseState) (st : ParseState) :
    Except Failure ParseState :=
  if f.allowed then do
    let (found, st) ← f.step st
    if found ∧ st.begin = [] then pure st else next st
  else if strict then do
    let (found, st) ← f.step st
    if found then throw (.throws f.error) else next st
  else next st

/-- The type, and the end of the specification. -/
def parseEnd (fields : SpecFields) (st : ParseState) : Except Failure ParseState := do
  let st ← if fields.type then st.parseType else pure st
  if ¬ fields.consumeAll then pure st
  else if st.begin ≠ [] ∧ st.begin.head? ≠ some (code '}') then throw (.throws .consumeInput)
  else pure st

/-- Fields one after the other, and the end of the specification. -/
def parseFields (strict : Bool) (fields : SpecFields) : List Field → ParseState → Except Failure ParseState
  | [] => parseEnd fields
  | f :: fs => parseField strict f (parseFields strict fields fs)

/-- The fields of `__parse`, in their order. -/
def fieldsOf (mode : Mode) (fields : SpecFields) : List Field :=
  [⟨true, .consumeInput, parseFillAlign⟩,
    ⟨fields.sign, .signNotAllowed, parseSign⟩,
    ⟨fields.alternateForm, .notAllowed "alternate form", parseAlternateForm⟩,
    ⟨fields.zeroPadding, .notAllowed "zero-padding", parseZeroPadding⟩,
    ⟨true, .consumeInput, parseWidth mode⟩,
    ⟨fields.precision, .notAllowed "precision", parsePrecision mode⟩,
    ⟨fields.localeSpecificForm, .notAllowed "locale-specific form", parseLocaleSpecificForm⟩,
    ⟨fields.clearBrackets, .notAllowed "n", parseClearBrackets⟩]

def parse (mode : Mode) (fields : SpecFields) (st : ParseState) : Except Failure ParseState :=
  if st.begin = [] ∨ st.begin.head? = some (code '}') ∨ fields.useRangeFill ∧ st.begin.head? = some (code ':') then
    pure st
  else parseFields mode.strict fields (fieldsOf mode fields) st

end ParseState

/-! ## 4. What the types make of it -/

namespace SpecParser

/-- An option that a type does not have.  The text depends on when it is found. -/
def reject (mode : Mode) (id option : String) : Except Failure Unit :=
  throw (.throws (if mode.verify then .notAllowed option else .notAllowedFor id option))

def validate (mode : Mode) (fields : SpecFields) (id : String) (allowed : SpecType → Bool) (p : SpecParser) :
    Except Failure Unit := do
  if ¬ fields.sign ∧ p.sign ≠ .default then reject mode id "sign"
  if ¬ fields.alternateForm ∧ p.alternateForm then reject mode id "alternate form"
  if ¬ fields.zeroPadding ∧ p.alignment = .zeroPadding then reject mode id "zero-padding"
  if ¬ fields.precision ∧ p.precision ≠ -1 then reject mode id "precision"
  if ¬ fields.localeSpecificForm ∧ p.localeSpecificForm then reject mode id "locale-specific form"
  if ¬ allowed p.type then throw (.throws (if mode.verify then .invalidTypeValue else .invalidType id))

/-- `__fmt_process_display_type_bool_str`, and the same for characters. -/
def processDisplayType (mode : Mode) (id : String) (p : SpecParser) : Except Failure SpecParser := do
  p.validate mode .bool id fun _ => true
  pure (if p.alignment = .default then { p with alignment := .left } else p)

/-- The types that an integer is written with. -/
def isInteger : SpecType → Bool
  | .binaryLowerCase | .binaryUpperCase | .octal | .decimal | .hexadecimalLowerCase | .hexadecimalUpperCase => true
  | _ => false

/-- `__fmt_process_parsed_bool`. -/
def processParsedBool (mode : Mode) (p : SpecParser) : Except Failure SpecParser :=
  if p.type = .default ∨ p.type = .string then processDisplayType mode "a bool" p
  else if isInteger p.type then pure p
  else throw (.throws (.invalidType "a bool"))

/-- `__fmt_process_parsed_char`. -/
def processParsedChar (mode : Mode) (p : SpecParser) : Except Failure SpecParser :=
  if p.type = .default ∨ p.type = .char then processDisplayType mode "a character" p
  else if isInteger p.type then pure p
  else throw (.throws (.invalidType "a character"))

/-- `__fmt_process_parsed_int`. -/
def processParsedInt (mode : Mode) (p : SpecParser) : Except Failure SpecParser :=
  if p.type = .default ∨ isInteger p.type then pure p
  else if p.type = .char then processDisplayType mode "an integer" p
  else throw (.throws (.invalidType "an integer"))

/-- `__fmt_process_display_type_str`. -/
def processDisplayTypeStr (p : SpecParser) : Except Failure SpecParser :=
  if p.type = .default ∨ p.type = .string then pure p else throw (.throws (.invalidType "a string"))

end SpecParser

/-- The formatters of the standard types. -/
inductive Formatter
  | bool
  | char
  | int
  | str
  deriving DecidableEq

namespace Formatter

/-- The parser that a formatter begins with. -/
def parser : Formatter → SpecParser
  | .str => { SpecParser.initial with alignment := .left }
  | _ => SpecParser.initial

/-- The fields that a formatter parses. -/
def fields : Formatter → SpecFields
  | .str => .str
  | _ => .int

/-- What a formatter makes of the fields. -/
def process (mode : Mode) : Formatter → SpecParser → Except Failure SpecParser
  | .bool => SpecParser.processParsedBool mode
  | .char => SpecParser.processParsedChar mode
  | .int => SpecParser.processParsedInt mode
  | .str => SpecParser.processDisplayTypeStr

/-- `parse`, after which the context is moved on. -/
def parse (mode : Mode) (f : Formatter) (ctx : ParseContext) : Except Failure (SpecParser × ParseContext) := do
  let st ← ParseState.parse mode f.fields ⟨f.parser, ctx.begin, ctx⟩
  let p ← f.process mode st.parser
  pure (p, { st.ctx with begin := st.begin })

end Formatter

end Cccl.Format
