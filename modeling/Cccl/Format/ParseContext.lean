/-
# `basic_format_parse_context`, and numbers in a format string

A format string is read from left to right, and an iterator into it is what is left of the string.  To read from an
iterator at the end is a failure of its own: none of the parsers does it (`Safe`).

Numbers are argument indices, widths and precisions.  The first nine digits are read without a check, and a tenth one
with two.
-/
import Cccl.Lib.Checks
import Mathlib.Algebra.Order.Ring.Int

namespace Cccl.Format

/-! ## 1. Errors -/

/-- What `format_error` says. -/
inductive FormatError
  | argIndexTooLarge
  | argIndexEnd
  | missingBrace
  | endsAtBrace
  | invalidEscape
  | numberTooLarge
  | argIndexStart
  | automaticInManual
  | manualInAutomatic
  | endInArgIndex
  | argIndexInvalid
  | fillInvalid
  | widthLeadingZero
  | endInPrecision
  | precisionInvalid
  | signNotAllowed
  | notAllowed (option : String)
  | notAllowedFor (id option : String)
  | invalidTypeValue
  | invalidType (id : String)
  | consumeInput
  | negativeArg
  | argTooLarge
  | notInteger
  | outsideChar
  deriving DecidableEq

/-- How a call may end without a result: an exception, a check that fails in a constant expression, or what must not
happen at all.  A loop that is cut off has a case of its own. -/
inductive Failure
  | throws (e : FormatError)
  | verify
  | readPastEnd
  | assertion
  | unreachable
  | cutOff
  deriving DecidableEq

/-- Nothing but an exception. -/
def Throws {α : Type} (r : Except Failure α) : Prop := ∀ f, r = .error f → ∃ e, f = .throws e

theorem throws_ok {α : Type} (a : α) : Throws (.ok a) := nofun

theorem throws_throw {α : Type} (e : FormatError) : Throws (.error (.throws e) : Except Failure α) :=
  fun _ h => ⟨e, (Except.error.inj h).symm⟩

theorem Throws.ite {α : Type} {c : Prop} [Decidable c] {r r' : Except Failure α} (h : Throws r) (h' : Throws r') :
    Throws (if c then r else r') := by
  split
  · exact h
  · exact h'

theorem Throws.bind {α β : Type} {r : Except Failure α} {k : α → Except Failure β} (h : Throws r)
    (hk : ∀ a, Throws (k a)) : Throws (r >>= k) := by
  intro f hf
  obtain hr | ⟨a, -, hka⟩ := bind_eq_error.mp hf
  · exact h f hr
  · exact hk a f hka

/-- The code of a character of the format language. -/
def code (c : Char) : ℤ := c.toNat

def IsDigit (c : ℤ) : Prop := code '0' ≤ c ∧ c ≤ code '9'

instance (c : ℤ) : Decidable (IsDigit c) := inferInstanceAs (Decidable (_ ∧ _))

/-- `*__begin`. -/
def deref : List ℤ → Except Failure ℤ
  | [] => .error .readPastEnd
  | c :: _ => .ok c

/-! ## 2. The context -/

inductive Indexing
  | unknown
  | manual
  | automatic
  deriving DecidableEq

/-- Which of the checks of a constant expression are made: the fields that are not allowed are looked for
(`_CCCL_IF_CONSTEVAL_DEFAULT`), and indices are verified (`_CCCL_IF_CONSTEVAL`). -/
structure Mode where
  strict : Bool
  verify : Bool

/-- In a constant expression.  Whether a compiler can tell that it evaluates one is a parameter. -/
def Mode.consteval (hasConsteval : Bool) : Mode := ⟨true, hasConsteval⟩

/-- At run time. -/
def Mode.runtime (hasConsteval : Bool) : Mode := ⟨!hasConsteval, false⟩

/-- The failures that a caller may see. -/
def Failure.Reported (mode : Mode) : Failure → Prop
  | .throws _ => True
  | .verify => mode.verify = true
  | _ => False

structure ParseContext where
  begin : List ℤ
  indexing : Indexing
  nextArgId : ℕ
  numArgs : ℕ
  deriving DecidableEq

namespace ParseContext

/-- A context for a format string. -/
def ofString (fmt : List ℤ) (numArgs : ℕ) : ParseContext where
  begin := fmt
  indexing := .unknown
  nextArgId := 0
  numArgs := numArgs

/-- `next_arg_id`. -/
def takeArgId (mode : Mode) (ctx : ParseContext) : Except Failure (ℕ × ParseContext) :=
  if ctx.indexing = .manual then .error (.throws .automaticInManual)
  else if mode.verify ∧ ¬ ctx.nextArgId < ctx.numArgs then .error .verify
  else .ok (ctx.nextArgId, { ctx with indexing := .automatic, nextArgId := ctx.nextArgId + 1 })

def checkArgId (mode : Mode) (id : ℕ) (ctx : ParseContext) : Except Failure ParseContext :=
  if ctx.indexing = .automatic then .error (.throws .manualInAutomatic)
  else if mode.verify ∧ ¬ id < ctx.numArgs then .error .verify
  else .ok { ctx with indexing := .manual }

end ParseContext

/-! ## 3. Numbers -/

/-- `__fmt_number_max`. -/
def numberMax : ℕ := 2 ^ 31 - 1

/-- The loop of `__fmt_parse_number` over at most so many characters.  Where it ends before, the next character is
not a digit. -/
def parseNumberLoop : ℕ → ℕ → List ℤ → ℕ × List ℤ
  | 0, value, s => (value, s)
  | _ + 1, value, [] => (value, [])
  | k + 1, value, c :: s =>
    if IsDigit c then parseNumberLoop k ((value * 10 + (c - code '0').toNat) % 2 ^ 32) s else (value, c :: s)

/-- `__fmt_parse_number`, from a digit on. -/
def parseNumber : List ℤ → Except Failure (ℕ × List ℤ)
  | [] => .error .readPastEnd
  | c :: s =>
    match parseNumberLoop 8 (c - code '0').toNat s with
    | (value, []) => .ok (value, [])
    | (value, d :: s) =>
      if IsDigit d then
        let v := value * 10 + (d - code '0').toNat
        if numberMax < v ∨ ∃ e ∈ s.head?, IsDigit e then .error (.throws .numberTooLarge) else .ok (v, s)
      else .ok (value, d :: s)

/-- `__fmt_parse_arg_id`. -/
def parseArgId (mode : Mode) (s : List ℤ) (ctx : ParseContext) : Except Failure (ℕ × List ℤ × ParseContext) := do
  let c ← deref s
  if c = code '0' then
    let ctx ← ctx.checkArgId mode 0
    pure (0, s.tail, ctx)
  else if c = code ':' ∨ c = code '}' then
    let (value, ctx) ← ctx.takeArgId mode
    pure (value, s, ctx)
  else if ¬ IsDigit c then throw (.throws .argIndexStart)
  else
    let (value, s) ← parseNumber s
    let ctx ← ctx.checkArgId mode value
    pure (value, s, ctx)

/-! ## 4. What reading does -/

theorem parseNumberLoop_length : ∀ (k value : ℕ) (s : List ℤ), (parseNumberLoop k value s).2.length ≤ s.length
  | 0, _, _ => Nat.le_refl _
  | _ + 1, _, [] => Nat.le_refl _
  | k + 1, value, c :: s => by
    rw [parseNumberLoop]
    split
    · exact Nat.le_succ_of_le (parseNumberLoop_length k _ s)
    · exact Nat.le_refl _

theorem parseNumber_cases {s : List ℤ} (h : s ≠ []) :
    parseNumber s = .error (.throws .numberTooLarge) ∨
      ∃ value rest, parseNumber s = .ok (value, rest) ∧ rest.length < s.length := by
  obtain ⟨c, s, rfl⟩ := List.exists_cons_of_ne_nil h
  have hlength := parseNumberLoop_length 8 (c - code '0').toNat s
  rw [parseNumber]
  split
  · rename_i value heq
    exact .inr ⟨value, [], rfl, Nat.succ_pos _⟩
  · rename_i value d rest heq
    rw [heq, List.length_cons] at hlength
    split
    · dsimp only
      split
      · exact .inl rfl
      · exact .inr ⟨_, rest, rfl, by rw [List.length_cons]; omega⟩
    · exact .inr ⟨value, d :: rest, rfl, by rw [List.length_cons, List.length_cons]; omega⟩

/-- What reading an index does: it fails with a report, or it takes characters. -/
theorem parseArgId_cases (mode : Mode) {s : List ℤ} (h : s ≠ []) (ctx : ParseContext) :
    (∃ f, parseArgId mode s ctx = .error f ∧ f.Reported mode) ∨
      ∃ id last ctx', parseArgId mode s ctx = .ok (id, last, ctx') ∧ last.length ≤ s.length ∧
        ctx'.numArgs = ctx.numArgs := by
  obtain ⟨c, s, rfl⟩ := List.exists_cons_of_ne_nil h
  have hcheck : ∀ id, (∃ f, ctx.checkArgId mode id = .error f ∧ f.Reported mode) ∨
      ∃ ctx', ctx.checkArgId mode id = .ok ctx' ∧ ctx'.numArgs = ctx.numArgs := by
    intro id
    unfold ParseContext.checkArgId
    split_ifs with hauto hverify
    · exact .inl ⟨_, rfl, trivial⟩
    · exact .inl ⟨_, rfl, hverify.1⟩
    · exact .inr ⟨_, rfl, rfl⟩
  simp only [parseArgId, deref, bind, Except.bind]
  by_cases hzero : c = code '0'
  · rw [if_pos hzero]
    obtain ⟨f, hf, hreported⟩ | ⟨ctx', hctx, hnum⟩ := hcheck 0
    · exact .inl ⟨f, by rw [hf], hreported⟩
    · exact .inr ⟨0, s, ctx', by rw [hctx]; rfl, Nat.le_succ _, hnum⟩
  rw [if_neg hzero]
  by_cases hnext : c = code ':' ∨ c = code '}'
  · rw [if_pos hnext, ParseContext.takeArgId]
    split_ifs with hmanual hverify
    · exact .inl ⟨_, rfl, trivial⟩
    · exact .inl ⟨_, rfl, hverify.1⟩
    · exact .inr ⟨_, _, _, rfl, Nat.le_refl _, rfl⟩
  rw [if_neg hnext]
  by_cases hdigit : IsDigit c
  swap
  · rw [if_pos hdigit]
    exact .inl ⟨_, rfl, trivial⟩
  rw [if_neg (not_not_intro hdigit)]
  obtain hlarge | ⟨value, rest, hnumber, hlength⟩ := parseNumber_cases (List.cons_ne_nil c s)
  · rw [hlarge]
    exact .inl ⟨_, rfl, trivial⟩
  rw [hnumber]
  obtain ⟨f, hf, hreported⟩ | ⟨ctx', hctx, hnum⟩ := hcheck value
  · exact .inl ⟨f, by dsimp only; rw [hf], hreported⟩
  · exact .inr ⟨value, rest, ctx', by dsimp only; rw [hctx]; rfl, Nat.le_of_lt hlength, hnum⟩

/-- **With verification, an index that is too large is found.** -/
theorem parseArgId_checks (strict strict' : Bool) (s : List ℤ) (ctx : ParseContext) :
    Checks (fun r => ctx.numArgs ≤ r.1) (parseArgId ⟨strict, true⟩ s ctx) (parseArgId ⟨strict', false⟩ s ctx) := by
  have hcheck : ∀ id, Checks (fun _ => ctx.numArgs ≤ id) (ctx.checkArgId ⟨strict, true⟩ id)
      (ctx.checkArgId ⟨strict', false⟩ id) := by
    intro id
    unfold ParseContext.checkArgId
    by_cases hauto : ctx.indexing = .automatic
    · rw [if_pos hauto, if_pos hauto]
      exact .refl _
    by_cases hlt : id < ctx.numArgs
    · simp only [if_neg hauto, hlt, not_true, and_false, if_false]
      exact .refl _
    · simp only [if_neg hauto, hlt, not_false_eq_true, and_true, if_true]
      exact checks_error fun _ _ => Nat.not_lt.mp hlt
  cases s with
  | nil => exact .refl _
  | cons c s =>
    simp only [parseArgId, deref]
    refine Checks.bind_refl fun c _ => ?_
    by_cases hzero : c = code '0'
    · rw [if_pos hzero, if_pos hzero]
      refine (hcheck 0).bind (fun _ _ => .refl _) fun ctx' r h heq => ?_
      obtain rfl := Except.ok.inj heq
      exact h
    rw [if_neg hzero, if_neg hzero]
    by_cases hnext : c = code ':' ∨ c = code '}'
    · rw [if_pos hnext, if_pos hnext]
      have htake : Checks (fun r => ctx.numArgs ≤ r.1) (ctx.takeArgId ⟨strict, true⟩)
          (ctx.takeArgId ⟨strict', false⟩) := by
        unfold ParseContext.takeArgId
        by_cases hmanual : ctx.indexing = .manual
        · rw [if_pos hmanual, if_pos hmanual]
          exact .refl _
        by_cases hlt : ctx.nextArgId < ctx.numArgs
        · simp only [if_neg hmanual, hlt, not_true, and_false, if_false]
          exact .refl _
        · simp only [if_neg hmanual, hlt, not_false_eq_true, and_true, if_true]
          refine checks_error fun r heq => ?_
          obtain rfl := Except.ok.inj heq
          exact Nat.not_lt.mp hlt
      refine htake.bind (fun _ _ => .refl _) fun r r' h heq => ?_
      obtain rfl := Except.ok.inj heq
      exact h
    rw [if_neg hnext, if_neg hnext]
    by_cases hdigit : IsDigit c
    swap
    · rw [if_pos hdigit, if_pos hdigit]
      exact .refl _
    rw [if_neg (not_not_intro hdigit), if_neg (not_not_intro hdigit)]
    refine Checks.bind_refl fun r _ => ?_
    refine (hcheck r.1).bind (fun _ _ => .refl _) fun ctx' r' h heq => ?_
    obtain rfl := Except.ok.inj heq
    exact h

end Cccl.Format
