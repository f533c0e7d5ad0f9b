/-
# What the values decide

A parser that is ready (`Formatter.Ready`) writes any value of its type, but for three things that depend on values:
a width or a precision that is negative, one that is too large, and an integer that is no character.

Which of them may happen is a set of errors that the arguments raise (`Raises`).  Any arguments raise these three and no
others; zeros raise none.
-/
import Cccl.Format.Formatters
import Cccl.Format.VformatTo

namespace Cccl.Format

open IntegerTypes

/-! ## 1. Errors -/

/-- The errors that depend on values. -/
def FormatError.OfValue : FormatError → Prop
  | .negativeArg | .argTooLarge | .outsideChar => True
  | _ => False

/-- The errors of a width that is taken from an argument of a type that it may not have. -/
def FormatError.OfWidth : FormatError → Prop
  | .notInteger | .argIndexTooLarge => True
  | _ => False

/-- A success, or one of some errors. -/
def SucceedsOr {α : Type} (E : FormatError → Prop) (r : Except Failure α) : Prop :=
  (∃ a, r = .ok a) ∨ ∃ e, r = .error (.throws e) ∧ E e

variable {m : DataModel} {C : IntegerType} {E : FormatError → Prop}

/-- The errors that a value raises are among some. -/
def FormatArg.Raises (m : DataModel) (C : IntegerType) (E : FormatError → Prop) : FormatArg → Prop
  | .int v | .unsigned v | .longLong v | .unsignedLongLong v =>
    SucceedsOr E (substituteNumber v) ∧ (C.Has m v ∨ E .outsideChar)
  | .handle _ v => C.Has m v ∨ E .outsideChar
  | _ => True

theorem substituteNumber_of_value (v : ℤ) : SucceedsOr FormatError.OfValue (substituteNumber v) := by
  unfold substituteNumber
  split
  · exact .inr ⟨.negativeArg, rfl, trivial⟩
  split
  · exact .inr ⟨.argTooLarge, rfl, trivial⟩
  · exact .inl ⟨_, rfl⟩

theorem FormatArg.raises_ofValue (arg : FormatArg) : arg.Raises m C FormatError.OfValue := by
  cases arg with
  | int v | unsigned v | longLong v | unsignedLongLong v => exact ⟨substituteNumber_of_value v, .inr trivial⟩
  | handle T v => exact .inr trivial
  | _ => trivial

/-! ## 2. Widths and precisions -/

variable {args : List FormatArg} {p : SpecParser}

/-- An argument of a type that a width may have. -/
def StandardAt (types : List ArgT) (id : ℕ) : Prop := ∃ t, types[id]? = some t ∧ t.isStandardInteger = true

instance (types : List ArgT) (id : ℕ) : Decidable (StandardAt types id) :=
  decidable_of_iff (types[id]?.any ArgT.isStandardInteger = true) (by
    unfold StandardAt
    cases types[id]? <;> simp)

/-- The width and the precision are there, or are taken from arguments that they may be taken from. -/
structure GoodIds (types : List ArgT) (p : SpecParser) : Prop where
  width : p.widthAsArg = true → StandardAt types p.width
  precision : p.precisionAsArg = true → StandardAt types p.precision.toNat

theorem getArg_of_some {id : ℕ} {t : ArgT} (h : (args.map FormatArg.type)[id]? = some t) :
    (getArg args id).type = t ∧ getArg args id ∈ args := by
  obtain ⟨arg, harg, rfl⟩ : ∃ arg, args[id]? = some arg ∧ arg.type = t := by simpa using h
  rw [getArg, List.getD_eq_getElem?_getD, harg]
  exact ⟨rfl, List.mem_of_getElem? harg⟩

theorem getArg_of_none {id : ℕ} (h : (args.map FormatArg.type)[id]? = none) : getArg args id = .none := by
  rw [List.getElem?_eq_none_iff, List.length_map] at h
  rw [getArg, List.getD_eq_getElem?_getD, List.getElem?_eq_none h]
  rfl

theorem substituteArgId_of_standard {id : ℕ} (h : StandardAt (args.map FormatArg.type) id)
    (hargs : ∀ arg ∈ args, arg.Raises m C E) : SucceedsOr E (substituteArgId (getArg args id)) := by
  obtain ⟨t, ht, hstandard⟩ := h
  obtain ⟨htype, hmem⟩ := getArg_of_some ht
  have hraises := hargs _ hmem
  cases harg : getArg args id with
  | int v | unsigned v | longLong v | unsignedLongLong v =>
    rw [harg] at hraises
    exact hraises.1
  | _ =>
    rw [← htype, harg] at hstandard
    exact absurd hstandard Bool.false_ne_true

theorem substituteArgId_of_not_standard {id : ℕ} (h : ¬ StandardAt (args.map FormatArg.type) id) :
    ∃ e : FormatError, substituteArgId (getArg args id) = .error (.throws e) ∧ e.OfWidth := by
  cases ht : (args.map FormatArg.type)[id]? with
  | none =>
    rw [getArg_of_none ht]
    exact ⟨.argIndexTooLarge, rfl, trivial⟩
  | some t =>
    have hstandard : t.isStandardInteger = false := by
      by_contra hnot
      exact h ⟨t, ht, Bool.eq_true_of_not_eq_false hnot⟩
    obtain ⟨htype, -⟩ := getArg_of_some ht
    cases harg : getArg args id with
    | none => exact ⟨.argIndexTooLarge, rfl, trivial⟩
    | int v | unsigned v | longLong v | unsignedLongLong v =>
      rw [← htype, harg] at hstandard
      exact absurd hstandard.symm Bool.false_ne_true
    | _ => exact ⟨.notInteger, rfl, trivial⟩

/-- What the parser of a specification has become. -/
inductive SpecCase (E : FormatError → Prop) (p : SpecParser) : Except Failure ParsedSpec → Prop
  | throws {e} : E e → SpecCase E p (.error (.throws e))
  | parsed {specs} : specs.type = p.type → specs.alignment = p.alignment → SpecCase E p (.ok specs)

theorem getParsedStdSpec_of_good (h : GoodIds (args.map FormatArg.type) p)
    (hargs : ∀ arg ∈ args, arg.Raises m C E) : SpecCase E p (p.getParsedStdSpec args) := by
  have hwidth : SucceedsOr E (p.getWidth args) := by
    unfold SpecParser.getWidth
    by_cases harg : p.widthAsArg = true
    · rw [if_neg (not_not_intro harg)]
      exact substituteArgId_of_standard (h.width harg) hargs
    · rw [if_pos harg]
      exact .inl ⟨_, rfl⟩
  have hprecision : SucceedsOr E (p.getPrecision args) := by
    unfold SpecParser.getPrecision
    by_cases harg : p.precisionAsArg = true
    · rw [if_neg (not_not_intro harg)]
      obtain ⟨v, hv⟩ | ⟨e, he, hE⟩ := substituteArgId_of_standard (h.precision harg) hargs
      · exact .inl ⟨v, by rw [hv]; rfl⟩
      · exact .inr ⟨e, by rw [he]; rfl, hE⟩
    · rw [if_pos harg]
      exact .inl ⟨_, rfl⟩
  unfold SpecParser.getParsedStdSpec
  obtain ⟨width, hwidth⟩ | ⟨e, he, hE⟩ := hwidth
  swap
  · rw [he]
    exact .throws hE
  obtain ⟨precision, hprecision⟩ | ⟨e, he, hE⟩ := hprecision
  swap
  · rw [hwidth, he]
    exact .throws hE
  rw [hwidth, hprecision]
  exact .parsed rfl rfl

theorem getParsedStdSpec_of_bad_width (hasArg : p.widthAsArg = true)
    (h : ¬ StandardAt (args.map FormatArg.type) p.width) :
    ∃ e : FormatError, p.getParsedStdSpec args = .error (.throws e) ∧ e.OfWidth := by
  obtain ⟨e, he, hwidth⟩ := substituteArgId_of_not_standard h
  refine ⟨e, ?_, hwidth⟩
  rw [SpecParser.getParsedStdSpec, SpecParser.getWidth, if_neg (not_not_intro hasArg), he]
  rfl

theorem throws_getWidth (args : List FormatArg) (p : SpecParser) : Throws (p.getWidth args) := by
  refine .ite (throws_ok _) ?_
  cases getArg args p.width with
  | int v | unsigned v | longLong v | unsignedLongLong v => exact .ite (throws_throw _) (.ite (throws_throw _) (throws_ok _))
  | _ => exact throws_throw _

/-- A width or a precision of another type is an error, whatever the values are. -/
theorem getParsedStdSpec_of_bad (h : ¬ GoodIds (args.map FormatArg.type) p) :
    ∃ e, p.getParsedStdSpec args = .error (.throws e) := by
  by_cases hwidth : p.widthAsArg = true ∧ ¬ StandardAt (args.map FormatArg.type) p.width
  · obtain ⟨e, he, -⟩ := getParsedStdSpec_of_bad_width hwidth.1 hwidth.2
    exact ⟨e, he⟩
  have hprecision : p.precisionAsArg = true ∧ ¬ StandardAt (args.map FormatArg.type) p.precision.toNat := by
    by_contra hnot
    rw [not_and, not_not] at hnot hwidth
    exact h ⟨hwidth, hnot⟩
  obtain ⟨e, he, -⟩ := substituteArgId_of_not_standard hprecision.2
  rw [SpecParser.getParsedStdSpec]
  cases hw : p.getWidth args with
  | error f =>
    obtain ⟨e', rfl⟩ := throws_getWidth args p f hw
    exact ⟨e', rfl⟩
  | ok width =>
    rw [SpecParser.getPrecision, if_neg (not_not_intro hprecision.1), he]
    exact ⟨e, rfl⟩

/-! ## 3. Arguments -/

theorem SucceedsOr.of_ok {α : Type} {r : Except Failure α} (h : ∃ a, r = .ok a) : SucceedsOr E r := .inl h

/-- An integer is written, unless it has to be a character and is none. -/
theorem formatInteger_bind (T : IntegerType) {v : ℤ} (hready : Formatter.int.Ready p)
    (hchar : C.Has m v ∨ E .outsideChar) : ∃ k, formatInteger m C T args v p = p.getParsedStdSpec args >>= k ∧
      ∀ specs, specs.type = p.type → specs.alignment = p.alignment → SucceedsOr E (k specs) := by
  refine ⟨_, rfl, fun specs htype halign => ?_⟩
  rw [htype]
  split
  · rename_i hc
    have halign' : specs.alignment ≠ .zeroPadding := by
      rw [halign]
      exact hready.align (by rw [hc]; rfl)
    by_cases hv : C.Has m v
    · exact .of_ok (formatChar_ok (.inr hv) halign')
    · rw [formatChar, if_pos ⟨Bool.false_ne_true, hv⟩]
      exact .inr ⟨.outsideChar, rfl, hchar.resolve_left hv⟩
  · rename_i hc
    refine .of_ok (formatInt_ok ?_ ?_ (IntegerType.has_staticCast v) ?_)
    · obtain ⟨rank, signed⟩ := T
      cases m <;> cases rank <;> exact Nat.le_of_ble_eq_true rfl
    · obtain ⟨rank, signed⟩ := T
      cases m <;> cases rank <;> cases signed <;> decide
    · rw [htype]
      refine (hready.type.resolve_left fun hdisplay => hc ?_).2
      revert hdisplay
      cases p.type <;> decide

/-- **An argument is written**, once its width and its precision are known. -/
theorem formatArg_bind {arg : FormatArg} {f : Formatter} (hf : arg.type.formatter = some f) (hready : f.Ready p)
    (hraises : arg.Raises m C E) : ∃ k, formatArg m C args arg p = p.getParsedStdSpec args >>= k ∧
      ∀ specs, specs.type = p.type → specs.alignment = p.alignment → SucceedsOr E (k specs) := by
  have huint : ∀ specs : ParsedSpec, specs.type = p.type →
      (p.type = .default ∨ SpecParser.isInteger p.type = true) → ∀ v : ℤ,
      IntegerType.Has m ⟨.int, false⟩ v → SucceedsOr E (formatInt m ⟨.int, false⟩ v specs) := by
    intro specs htype hint v hv
    refine .of_ok (formatInt_ok ?_ (by decide) hv (by rwa [htype]))
    cases m <;> exact Nat.le_refl 32
  cases arg with
  | none => exact nomatch hf
  | boolean b =>
    obtain rfl : Formatter.bool = f := Option.some.inj hf
    rw [formatArg]
    split
    · rename_i hdisplay
      refine ⟨formatBool b, rfl, fun specs _ halign => .of_ok (formatBool_ok b ?_)⟩
      rw [halign]
      refine hready.align ?_
      obtain h | h := hdisplay
      · rw [h]; rfl
      · rw [h]; rfl
    · rename_i hdisplay
      have hint : SpecParser.isInteger p.type = true := by
        obtain h | ⟨-, h | h⟩ := hready.type
        · refine absurd ?_ hdisplay
          revert h
          cases p.type <;> decide
        · exact absurd (.inl h) hdisplay
        · exact h
      rw [if_pos hint]
      refine ⟨_, rfl, fun specs htype _ => huint specs htype (.inr hint) _ ?_⟩
      cases m <;> cases b <;> decide
  | charType c =>
    obtain rfl : Formatter.char = f := Option.some.inj hf
    refine ⟨_, rfl, fun specs htype halign => ?_⟩
    split
    · rename_i hdisplay
      refine .of_ok (formatChar_ok (.inl rfl) ?_)
      rw [halign]
      refine hready.align ?_
      obtain h | h := hdisplay
      · rw [h]; rfl
      · rw [h]; rfl
    · rename_i hdisplay
      refine huint specs htype ?_ _ (IntegerType.has_staticCast _)
      refine (hready.type.resolve_left fun h => hdisplay ?_).2
      revert h
      cases p.type <;> decide
  | int v | unsigned v | longLong v | unsignedLongLong v =>
    obtain rfl : Formatter.int = f := Option.some.inj hf
    exact formatInteger_bind _ hready hraises.2
  | handle T v =>
    obtain rfl : Formatter.int = f := Option.some.inj hf
    exact formatInteger_bind T hready hraises
  | constCharTypePtr str | stringView str =>
    obtain rfl : Formatter.str = f := Option.some.inj hf
    refine ⟨_, rfl, fun specs _ halign => .of_ok (fmtWriteString_ok str ?_)⟩
    rw [halign]
    exact hready.align (hready.type.resolve_right fun h => h.1 rfl)

/-- With a width and a precision of the right types, an argument is written, or its values raise an error. -/
theorem formatArg_of_good {arg : FormatArg} {f : Formatter} (hf : arg.type.formatter = some f) (hready : f.Ready p)
    (hraises : arg.Raises m C E) (hargs : ∀ arg ∈ args, arg.Raises m C E)
    (hids : GoodIds (args.map FormatArg.type) p) : SucceedsOr E (formatArg m C args arg p) := by
  obtain ⟨k, hk, hspecs⟩ := formatArg_bind hf hready hraises
  rw [hk]
  have hcase := getParsedStdSpec_of_good hids hargs
  cases hr : p.getParsedStdSpec args with
  | error f =>
    rw [hr] at hcase
    cases hcase with
    | throws he => exact .inr ⟨_, rfl, he⟩
  | ok specs =>
    rw [hr] at hcase
    cases hcase with
    | parsed htype halign => exact hspecs specs htype halign

/-- An error of the width or the precision is the error of the argument. -/
theorem formatArg_of_error {arg : FormatArg} {f : Formatter} (hf : arg.type.formatter = some f) (hready : f.Ready p)
    {e : Failure} (he : p.getParsedStdSpec args = .error e) : formatArg m C args arg p = .error e := by
  obtain ⟨k, hk, -⟩ := formatArg_bind hf hready (arg.raises_ofValue (m := m) (C := C))
  rw [hk, he]
  rfl

end Cccl.Format
