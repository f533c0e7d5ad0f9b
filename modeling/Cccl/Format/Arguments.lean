/-
# Arguments of a format call

An argument is stored as one of a few types.  Integers of at most 64 bits are converted to one of four; wider ones are
stored as handles, which know their formatter only.  Floating-point numbers and pointers are left out.

The width and the precision of a field may be taken from an argument, which has to be of one of the four types.
-/
import Cccl.Format.SpecParser
import Cccl.Lib.IntegerTypes

namespace Cccl.Format

open IntegerTypes

/-! ## 1. Types -/

/-- `__fmt_arg_t`. -/
inductive ArgT
  | none
  | boolean
  | charType
  | int
  | longLong
  | unsigned
  | unsignedLongLong
  | constCharTypePtr
  | stringView
  | handle
  deriving DecidableEq

/-- The types of the arguments of a call.  A `char` that is written to wide characters is narrow. -/
inductive ArgumentType
  | bool
  | char
  | narrowChar
  | integer (T : IntegerType)
  | charPtr
  | stringView
  | charArray
  deriving DecidableEq

/-- `__fmt_determine_arg_t`. -/
def determineArgT (m : DataModel) : ArgumentType → ArgT
  | .bool => .boolean
  | .char => .charType
  | .narrowChar => .charType
  | .integer T =>
    if T.bits m ≤ 32 then if T.signed then .int else .unsigned
    else if T.bits m ≤ 64 then if T.signed then .longLong else .unsignedLongLong
    else .handle
  | .charPtr => .constCharTypePtr
  | .stringView => .stringView
  | .charArray => .stringView

/-- The formatter of a stored type. -/
def ArgT.formatter : ArgT → Option Formatter
  | .none => Option.none
  | .boolean => some .bool
  | .charType => some .char
  | .int | .longLong | .unsigned | .unsignedLongLong | .handle => some .int
  | .constCharTypePtr | .stringView => some .str

/-- The types that a width or a precision may have. -/
def ArgT.isStandardInteger : ArgT → Bool
  | .int | .longLong | .unsigned | .unsignedLongLong => true
  | _ => false

/-! ## 2. Values -/

/-- An argument of a call.  Of a string, the characters before the first zero are given. -/
inductive Argument (m : DataModel) (C : IntegerType)
  | bool (b : Bool)
  | char (c : ℤ) (h : C.Has m c)
  | narrowChar (c : ℤ)
  | integer (T : IntegerType) (v : ℤ) (h : T.Has m v)
  | charPtr (s : List ℤ)
  | stringView (s : List ℤ)
  | charArray (s : List ℤ)

variable {m : DataModel} {C : IntegerType}

def Argument.type : Argument m C → ArgumentType
  | .bool _ => .bool
  | .char _ _ => .char
  | .narrowChar _ => .narrowChar
  | .integer T _ _ => .integer T
  | .charPtr _ => .charPtr
  | .stringView _ => .stringView
  | .charArray _ => .charArray

/-- `basic_format_arg`: a stored type and its value.  A handle has the type of its value, too. -/
inductive FormatArg
  | none
  | boolean (b : Bool)
  | charType (c : ℤ)
  | int (v : ℤ)
  | longLong (v : ℤ)
  | unsigned (v : ℤ)
  | unsignedLongLong (v : ℤ)
  | constCharTypePtr (s : List ℤ)
  | stringView (s : List ℤ)
  | handle (T : IntegerType) (v : ℤ)
  deriving DecidableEq

def FormatArg.type : FormatArg → ArgT
  | .none => .none
  | .boolean _ => .boolean
  | .charType _ => .charType
  | .int _ => .int
  | .longLong _ => .longLong
  | .unsigned _ => .unsigned
  | .unsignedLongLong _ => .unsignedLongLong
  | .constCharTypePtr _ => .constCharTypePtr
  | .stringView _ => .stringView
  | .handle _ _ => .handle

/-- `__fmt_make_format_arg`. -/
def makeFormatArg (m : DataModel) (C : IntegerType) : Argument m C → FormatArg
  | .bool b => .boolean b
  | .char c _ => .charType c
  | .narrowChar c => .charType (C.staticCast m (c % 2 ^ 8))
  | .integer T v _ =>
    match determineArgT m (.integer T) with
    | .int => .int (IntegerType.staticCast m ⟨.int, true⟩ v)
    | .unsigned => .unsigned (IntegerType.staticCast m ⟨.int, false⟩ v)
    | .longLong => .longLong (IntegerType.staticCast m ⟨.longLong, true⟩ v)
    | .unsignedLongLong => .unsignedLongLong (IntegerType.staticCast m ⟨.longLong, false⟩ v)
    | _ => .handle T v
  | .charPtr s => .constCharTypePtr s
  | .stringView s => .stringView s
  | .charArray s => .stringView s

/-- `basic_format_args::get`. -/
def getArg (args : List FormatArg) (id : ℕ) : FormatArg := args.getD id .none

/-! ## 3. Widths and precisions -/

/-- A number for a width or a precision, of a signed type or not. -/
def substituteNumber (v : ℤ) : Except Failure ℕ :=
  if v < 0 then throw (.throws .negativeArg)
  else if (numberMax : ℤ) < v then throw (.throws .argTooLarge)
  else pure v.toNat

/-- `__fmt_substitute_arg_id`. -/
def substituteArgId : FormatArg → Except Failure ℕ
  | .none => throw (.throws .argIndexTooLarge)
  | .int v | .unsigned v | .longLong v | .unsignedLongLong v => substituteNumber v
  | _ => throw (.throws .notInteger)

/-- `__fmt_parsed_spec`. -/
structure ParsedSpec where
  alignment : Alignment
  sign : Sign
  alternateForm : Bool
  localeSpecificForm : Bool
  type : SpecType
  width : ℕ
  precision : ℤ
  fill : ℤ
  deriving DecidableEq

namespace SpecParser

variable (args : List FormatArg) (p : SpecParser)

def getWidth : Except Failure ℕ := if ¬ p.widthAsArg then pure p.width else substituteArgId (getArg args p.width)

def getPrecision : Except Failure ℤ :=
  if ¬ p.precisionAsArg then pure p.precision
  else do
    let v ← substituteArgId (getArg args p.precision.toNat)
    pure v

def getParsedStdSpec : Except Failure ParsedSpec := do
  let width ← p.getWidth args
  let precision ← p.getPrecision args
  pure
    { alignment := p.alignment
      sign := p.sign
      alternateForm := p.alternateForm
      localeSpecificForm := p.localeSpecificForm
      type := p.type
      width := width
      precision := precision
      fill := p.fill }

end SpecParser

end Cccl.Format
