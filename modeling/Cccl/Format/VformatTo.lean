/-
# `__fmt_vformat_to`

The loop over a format string copies what is literal and hands each replacement field to the context.  There are two
contexts: at run time a field is parsed and its argument is written, in a constant expression it is parsed and its types
are checked.
-/
import Cccl.Format.Integral

namespace Cccl.Format

open IntegerTypes

/-! ## 1. The loop -/

/-- A format context: what it does with a replacement field, which has a format specification or not, and with a
literal character.  What it has written is `ω`. -/
structure FormatContext (ω : Type) where
  visit : ℕ → Bool → ParseContext → ω → Except Failure (ParseContext × ω)
  put : ω → ℤ → ω

variable {ω : Type}

/-- `__fmt_handle_replacement_field`, from the character after the brace on. -/
def handleReplacementField (mode : Mode) (F : FormatContext ω) (s : List ℤ) (ctx : ParseContext) (out : ω) :
    Except Failure (List ℤ × ParseContext × ω) := do
  let (id, last, ctx) ← parseArgId mode s ctx
  match last with
  | [] => throw (.throws .argIndexEnd)
  | c :: rest =>
    if c = code ':' ∨ c = code '}' then
      let parse := decide (c = code ':')
      let (ctx, out) ← F.visit id parse { ctx with begin := if parse then rest else last } out
      match ctx.begin with
      | [] => throw (.throws .missingBrace)
      | d :: rest => if d ≠ code '}' then throw (.throws .missingBrace) else pure (rest, ctx, out)
    else throw (.throws .argIndexEnd)

/-- The loop of `__fmt_vformat_to`.  Each turn takes at least one character. -/
def vformatLoop (mode : Mode) (F : FormatContext ω) : ℕ → List ℤ → ParseContext → ω → Except Failure ω
  | _, [], _, out => pure out
  | 0, _ :: _, _, _ => throw .cutOff
  | fuel + 1, c :: s, ctx, out =>
    if c = code '{' then
      match s with
      | [] => throw (.throws .endsAtBrace)
      | d :: rest =>
        if d ≠ code '{' then do
          let (s, ctx, out) ← handleReplacementField mode F (d :: rest) ctx out
          vformatLoop mode F fuel s ctx out
        else vformatLoop mode F fuel rest ctx (F.put out d)
    else if c = code '}' then
      match s with
      | [] => throw (.throws .invalidEscape)
      | d :: rest =>
        if d ≠ code '}' then throw (.throws .invalidEscape)
        else vformatLoop mode F fuel rest ctx (F.put out d)
    else vformatLoop mode F fuel s ctx (F.put out c)

/-- `__fmt_vformat_to`. -/
def vformatTo (mode : Mode) (F : FormatContext ω) (fmt : List ℤ) (numArgs : ℕ) (out : ω) : Except Failure ω :=
  vformatLoop mode F fmt.length fmt (.ofString fmt numArgs) out

/-! ## 2. The contexts -/

/-- `basic_format_context`, with `__fmt_replacement_field_visitor`.  A handle is always parsed. -/
def runtimeContext (m : DataModel) (C : IntegerType) (mode : Mode) (args : List FormatArg) :
    FormatContext (List ℤ) where
  visit id parse ctx out :=
    let arg := getArg args id
    match arg.type.formatter with
    | none => throw (.throws .argIndexTooLarge)
    | some f => do
      let (p, ctx) ← if parse ∨ arg.type = .handle then f.parse mode ctx else pure (f.parser, ctx)
      let written ← formatArg m C args arg p
      pure (ctx, out ++ written)
  put out c := out ++ [c]

/-- `__fmt_validate_format_arg`: the check of a width or a precision that is taken from an argument. -/
def checkDynamic (types : List ArgT) (asArg : Bool) (id : ℕ) : Except Failure Unit :=
  if asArg then
    match types[id]? with
    | none => throw (.throws .argIndexTooLarge)
    | some t => if t.isStandardInteger then pure () else throw (.throws .notInteger)
  else pure ()

/-- `__fmt_validate_visit_format_arg`.  Of the types here, the strings have a precision. -/
def validateVisit (mode : Mode) (types : List ArgT) (t : ArgT) (f : Formatter) (ctx : ParseContext) :
    Except Failure ParseContext := do
  let (p, ctx) ← f.parse mode ctx
  checkDynamic types p.widthAsArg p.width
  if t = .constCharTypePtr ∨ t = .stringView then checkDynamic types p.precisionAsArg p.precision.toNat
  pure ctx

/-- `__fmt_validation_format_context`.  Of a handle, the specification is parsed. -/
def validationContext (mode : Mode) (types : List ArgT) : FormatContext Unit where
  visit id parse ctx _ :=
    match types[id]? with
    | none => throw (.throws .argIndexTooLarge)
    | some t =>
      match t.formatter with
      | none => throw (.throws .argIndexTooLarge)
      | some f =>
        if t = .handle then do
          let (_, ctx) ← f.parse mode ctx
          pure (ctx, ())
        else if parse then do
          let ctx ← validateVisit mode types t f ctx
          pure (ctx, ())
        else pure (ctx, ())
  put _ _ := ()

end Cccl.Format
