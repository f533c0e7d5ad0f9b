/-
# What the formatters make of a specification

Each formatter checks the fields that were parsed against its types.  After that it can write any value (`Ready`): the
type is one of its own, and what is written as text is not padded with zeros.

In a constant expression a formatter rejects the same specifications and those with an index that is too large
(`parse_checks`).
-/
import Cccl.Format.SpecSteps

namespace Cccl.Format

/-! ## 1. What is valid -/

namespace SpecParser

variable {mode mode' : Mode} {p p' : SpecParser}

/-- What `__validate` checks. -/
structure Valid (fields : SpecFields) (allowed : SpecType → Bool) (p : SpecParser) : Prop where
  sign : fields.sign = true ∨ p.sign = .default
  alternateForm : fields.alternateForm = true ∨ p.alternateForm = false
  zeroPadding : fields.zeroPadding = true ∨ p.alignment ≠ .zeroPadding
  precision : fields.precision = true ∨ p.precision = -1
  localeSpecificForm : fields.localeSpecificForm = true ∨ p.localeSpecificForm = false
  type : allowed p.type = true

theorem ite_error_eq_ok {c : Prop} [Decidable c] {f g : Except Failure Unit} {e : Failure} {u : Unit}
    (hf : f = .error e) :
    (if c then f else g) = .ok u ↔ ¬ c ∧ g = .ok u := by
  subst hf
  by_cases h : c
  · rw [if_pos h]
    exact ⟨fun heq => absurd heq nofun, fun heq => absurd h heq.1⟩
  · rw [if_neg h]
    exact ⟨fun heq => ⟨h, heq⟩, And.right⟩

theorem validate_eq_ok {fields : SpecFields} {id : String} {allowed : SpecType → Bool} {u : Unit} :
    p.validate mode fields id allowed = .ok u ↔ Valid fields allowed p := by
  rw [validate, ite_error_eq_ok, ite_error_eq_ok, ite_error_eq_ok, ite_error_eq_ok, ite_error_eq_ok, ite_error_eq_ok]
  · constructor
    · rintro ⟨h₁, h₂, h₃, h₄, h₅, h₆, -⟩
      constructor <;> grind
    · rintro ⟨h₁, h₂, h₃, h₄, h₅, h₆⟩
      refine ⟨?_, ?_, ?_, ?_, ?_, ?_, rfl⟩ <;> grind
  all_goals exact rfl

theorem processDisplayType_eq_ok {id : String} : p.processDisplayType mode id = .ok p' ↔
    Valid .bool (fun _ => true) p ∧ p' = if p.alignment = .default then { p with alignment := .left } else p := by
  rw [processDisplayType, bind_eq_ok]
  constructor
  · rintro ⟨u, hvalid, heq⟩
    exact ⟨validate_eq_ok.mp hvalid, (Except.ok.inj heq).symm⟩
  · rintro ⟨hvalid, rfl⟩
    exact ⟨(), validate_eq_ok.mpr hvalid, rfl⟩

end SpecParser

/-! ## 2. What a formatter parses -/

namespace Formatter

variable {f : Formatter} {p p' : SpecParser}

/-- The types with which a formatter writes a value as text. -/
def display : Formatter → SpecType → Bool
  | .bool, .default | .bool, .string => true
  | .char, .default | .char, .char => true
  | .int, .char => true
  | .str, .default | .str, .string => true
  | _, _ => false

/-- What a formatter needs of a parser to write any value. -/
structure Ready (f : Formatter) (p : SpecParser) : Prop where
  type : f.display p.type = true ∨ f ≠ .str ∧ (p.type = .default ∨ SpecParser.isInteger p.type = true)
  align : f.display p.type = true → p.alignment ≠ .zeroPadding
  precision : f ≠ .str → p.precisionAsArg = false

theorem ready_of_initial (f : Formatter) : f.Ready f.parser := by
  cases f <;> constructor <;> decide

/-- What a formatter makes of the fields: nothing, or a default alignment. -/
theorem process_eq_ok {mode : Mode} : f.process mode p = .ok p' ↔
    if f.display p.type = true ∧ f ≠ .str then
      SpecParser.Valid .bool (fun _ => true) p ∧
        p' = if p.alignment = .default then { p with alignment := .left } else p
    else p' = p ∧ (f.display p.type = true ∨ f ≠ .str ∧ (p.type = .default ∨ SpecParser.isInteger p.type = true)) := by
  have hpure : ∀ {q : SpecParser}, (pure q : Except Failure SpecParser) = .ok p' ↔ p' = q :=
    ⟨fun h => (Except.ok.inj h).symm, fun h => congrArg _ h.symm⟩
  have hthrow : ∀ {e}, (throw e : Except Failure SpecParser) = .ok p' ↔ False := ⟨nofun, False.elim⟩
  cases f <;> cases h : p.type <;>
    simp [process, SpecParser.processParsedBool, SpecParser.processParsedChar, SpecParser.processParsedInt,
      SpecParser.processDisplayTypeStr, display, h, SpecParser.isInteger, SpecParser.processDisplayType_eq_ok, hpure,
      hthrow]

/-- What a formatter makes of the fields leaves the widths and precisions as they are. -/
theorem process_ids {mode : Mode} (h : f.process mode p = .ok p') : p'.widthAsArg = p.widthAsArg ∧ p'.width = p.width ∧
    p'.precisionAsArg = p.precisionAsArg ∧ p'.precision = p.precision ∧ p'.type = p.type := by
  rw [process_eq_ok] at h
  split at h
  · obtain ⟨-, rfl⟩ := h
    split
    · exact ⟨rfl, rfl, rfl, rfl, rfl⟩
    · exact ⟨rfl, rfl, rfl, rfl, rfl⟩
  · obtain ⟨rfl, -⟩ := h
    exact ⟨rfl, rfl, rfl, rfl, rfl⟩

/-- **A formatter that has parsed a specification can write any value.** -/
theorem ready_of_parse {mode : Mode} {ctx ctx' : ParseContext} (h : f.parse mode ctx = .ok (p, ctx')) : f.Ready p := by
  obtain ⟨st, hst, h⟩ := bind_eq_ok.mp h
  obtain ⟨q, hq, h⟩ := bind_eq_ok.mp h
  obtain ⟨rfl, -⟩ : q = p ∧ _ := by simpa using Except.ok.inj h
  obtain ⟨-, -, hprecision, -, htype⟩ := process_ids hq
  refine ⟨?_, ?_, fun hne => ?_⟩
  · rw [htype]
    rw [process_eq_ok] at hq
    split at hq
    · rename_i hdisplay
      exact .inl hdisplay.1
    · exact hq.2
  · rw [htype]
    intro hdisplay
    rw [process_eq_ok] at hq
    split at hq
    · obtain ⟨hvalid, rfl⟩ := hq
      split
      · exact nofun
      · exact hvalid.zeroPadding.resolve_left (by decide)
    · rename_i hnot
      obtain rfl : f = .str := by
        by_contra hne
        exact hnot ⟨hdisplay, hne⟩
      rw [hq.1]
      exact ParseState.parse_str_alignment mode ⟨Formatter.str.parser, ctx.begin, ctx⟩ st nofun hst
  · have hint := ParseState.parse_int_precision mode ⟨f.parser, ctx.begin, ctx⟩ st
    have hfields : f.fields = .int := by cases f <;> first | rfl | exact absurd rfl hne
    rw [hprecision]
    rw [hfields] at hst
    refine hint ?_ hst
    cases f <;> first | rfl | exact absurd rfl hne

theorem throws_process (mode : Mode) (p : SpecParser) : Throws (f.process mode p) := by
  have hvalidate : ∀ (fields : SpecFields) (id : String) (allowed : SpecType → Bool),
      Throws (p.validate mode fields id allowed) := fun fields id allowed =>
    .ite (throws_throw _) (.ite (throws_throw _) (.ite (throws_throw _) (.ite (throws_throw _)
      (.ite (throws_throw _) (.ite (throws_throw _) (throws_ok _))))))
  have hdisplay : ∀ id : String, Throws (p.processDisplayType mode id) := fun id =>
    (hvalidate .bool id fun _ => true).bind fun _ => throws_ok _
  cases f with
  | bool => exact .ite (hdisplay _) (.ite (throws_ok _) (throws_throw _))
  | char => exact .ite (hdisplay _) (.ite (throws_ok _) (throws_throw _))
  | int => exact .ite (throws_ok _) (.ite (hdisplay _) (throws_throw _))
  | str => exact .ite (throws_ok _) (throws_throw _)

theorem redundant (f : Formatter) (mode : Mode) :
    ParseState.Redundant f.fields (ParseState.fieldsOf mode f.fields) := by
  cases f with
  | str => exact ParseState.redundant_str mode
  | _ => exact ParseState.redundant_int mode

/-- The arguments for the width and the precision exist. -/
def BadIds (p : SpecParser) (numArgs : ℕ) : Prop :=
  p.widthAsArg = true ∧ numArgs ≤ p.width ∨ p.precisionAsArg = true ∧ (numArgs : ℤ) ≤ p.precision

/-- **In a constant expression a formatter finds more**: the indices that are too large. -/
theorem parse_checks (hasConsteval : Bool) (f : Formatter) (ctx : ParseContext) :
    Checks (fun r => BadIds r.1 r.2.numArgs) (f.parse (.consteval hasConsteval) ctx)
      (f.parse (.runtime hasConsteval) ctx) := by
  refine (ParseState.parse_checks hasConsteval (redundant f) _).bind (fun st _ => ?_) fun st r hbad heq => ?_
  · have hprocess : Checks (fun _ => False) (f.process (.consteval hasConsteval) st.parser)
        (f.process (.runtime hasConsteval) st.parser) :=
      checks_of_iff fun p => by rw [process_eq_ok, process_eq_ok]
    exact hprocess.bind (fun _ _ => .refl _) fun _ _ h => h.elim
  · obtain ⟨q, hq, heq⟩ := bind_eq_ok.mp heq
    obtain rfl := Except.ok.inj heq
    obtain ⟨hwidth, hwidth', hprecision, hprecision', -⟩ := process_ids hq
    unfold BadIds
    rw [hwidth, hwidth', hprecision, hprecision']
    exact hbad

/-- What may come of a formatter. -/
inductive ParseCase (mode : Mode) (f : Formatter) (ctx : ParseContext) :
    Except Failure (SpecParser × ParseContext) → Prop
  | report {e} : e.Reported mode → ParseCase mode f ctx (.error e)
  | parsed {p ctx'} : f.Ready p → ctx'.begin.length ≤ ctx.begin.length → ctx'.numArgs = ctx.numArgs →
    ParseCase mode f ctx (.ok (p, ctx'))

theorem parse_case (mode : Mode) (f : Formatter) (ctx : ParseContext) : ParseCase mode f ctx (f.parse mode ctx) := by
  cases h : f.parse mode ctx with
  | error e =>
    obtain hst | ⟨st, -, hprocess⟩ := bind_eq_error.mp h
    · have hcase := ParseState.parse_case mode f.fields ⟨f.parser, ctx.begin, ctx⟩
      rw [hst] at hcase
      cases hcase with
      | report he => exact .report he
    · obtain hq | ⟨q, -, hpure⟩ := bind_eq_error.mp hprocess
      · obtain ⟨e', rfl⟩ := throws_process mode st.parser e hq
        exact .report trivial
      · exact absurd hpure (by simp [pure, Except.pure])
  | ok r =>
    refine .parsed (ready_of_parse h) ?_ ?_
    all_goals
      obtain ⟨st, hst, h⟩ := bind_eq_ok.mp h
      obtain ⟨q, hq, h⟩ := bind_eq_ok.mp h
      obtain rfl := Except.ok.inj h
      have hcase := ParseState.parse_case mode f.fields ⟨f.parser, ctx.begin, ctx⟩
      rw [hst] at hcase
      cases hcase with
      | parsed hlength hnum => first | exact hlength | exact hnum

end Formatter

end Cccl.Format
