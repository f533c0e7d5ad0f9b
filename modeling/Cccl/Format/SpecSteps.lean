/-
# The steps of the format specification parser

Each step takes characters or leaves everything as it is, and fails only with a report (`StepCase`).  So the parser
never reads past the end (`parse_cases`).

A parser that looks for fields that are not allowed rejects the same specifications (`parse_strict`), and one that
verifies indices rejects those with an index that is too large (`parse_verify`).
-/
import Cccl.Format.SpecParser

namespace Cccl.Format

namespace ParseState

variable {mode : Mode} {st : ParseState}

/-! ## 1. Steps -/

/-- What may come of a step. -/
inductive StepCase (mode : Mode) (st : ParseState) : Except Failure (Bool × ParseState) → Prop
  | report {f} : f.Reported mode → StepCase mode st (.error f)
  | stay : StepCase mode st (.ok (false, st))
  | take {st'} : st'.begin.length < st.begin.length → st'.ctx.numArgs = st.ctx.numArgs →
      StepCase mode st (.ok (true, st'))

theorem parseAlignment_case (h : st.begin ≠ []) : StepCase mode st st.parseAlignment := by
  obtain ⟨c, s, hs⟩ := List.exists_cons_of_ne_nil h
  simp only [parseAlignment, hs, deref, bind, Except.bind]
  cases alignmentOf c with
  | none => exact .stay
  | some a => exact .take (by rw [hs]; exact Nat.lt_succ_self _) rfl

theorem parseFillAlign_case (h : st.begin ≠ []) : StepCase mode st st.parseFillAlign := by
  have halone : StepCase mode st st.parseAlignment := parseAlignment_case h
  unfold parseFillAlign
  split
  · rename_i fill c rest hs
    split
    · split
      · exact .report trivial
      · exact .take (by rw [hs, List.length_cons, List.length_cons]; dsimp only; omega) rfl
    · exact halone
  · exact halone

theorem parseSign_case (h : st.begin ≠ []) : StepCase mode st st.parseSign := by
  obtain ⟨c, s, hs⟩ := List.exists_cons_of_ne_nil h
  simp only [parseSign, hs, deref, bind, Except.bind]
  cases signOf c with
  | none => exact .stay
  | some a => exact .take (by rw [hs]; exact Nat.lt_succ_self _) rfl

theorem parseFlag_case (flag : Char) (set : SpecParser → SpecParser) (h : st.begin ≠ []) :
    StepCase mode st (st.parseFlag flag set) := by
  obtain ⟨c, s, hs⟩ := List.exists_cons_of_ne_nil h
  simp only [parseFlag, hs, deref, bind, Except.bind]
  split
  · exact .stay
  · exact .take (by rw [hs]; exact Nat.lt_succ_self _) rfl

theorem parseNestedArgId_cases (mode : Mode) (s : List ℤ) (ctx : ParseContext) :
    (∃ f, parseNestedArgId mode s ctx = .error f ∧ f.Reported mode) ∨
      ∃ id rest ctx', parseNestedArgId mode s ctx = .ok (id, rest, ctx') ∧ rest.length < s.length ∧
        ctx'.numArgs = ctx.numArgs := by
  cases s with
  | nil => exact .inl ⟨_, rfl, trivial⟩
  | cons c s =>
    rw [parseNestedArgId, if_neg (List.cons_ne_nil c s)]
    obtain ⟨f, hf, hreported⟩ | ⟨id, last, ctx', hid, hlength, hnum⟩ :=
      parseArgId_cases mode (List.cons_ne_nil c s) ctx
    · rw [hf]
      exact .inl ⟨f, rfl, hreported⟩
    rw [hid]
    cases last with
    | nil => exact .inl ⟨_, rfl, trivial⟩
    | cons d rest =>
      simp only [pure, Except.pure, bind, Except.bind]
      split
      · exact .inl ⟨_, rfl, trivial⟩
      · exact .inr ⟨id, rest, ctx', rfl, hlength, hnum⟩

theorem parseWidth_case (mode : Mode) (h : st.begin ≠ []) : StepCase mode st (st.parseWidth mode) := by
  obtain ⟨c, s, hs⟩ := List.exists_cons_of_ne_nil h
  simp only [parseWidth, hs, deref, List.tail_cons, bind, Except.bind]
  split
  · exact .report trivial
  split
  · obtain ⟨f, hf, hreported⟩ | ⟨id, rest, ctx', hid, hlength, hnum⟩ := parseNestedArgId_cases mode s st.ctx
    · rw [hf]
      exact .report hreported
    · rw [hid]
      exact .take (by rw [hs]; exact Nat.lt_succ_of_lt hlength) hnum
  split
  · exact .stay
  · obtain hlarge | ⟨value, rest, hnumber, hlength⟩ := parseNumber_cases (List.cons_ne_nil c s)
    · rw [hlarge]
      exact .report trivial
    · rw [hnumber]
      exact .take (by rw [hs]; exact hlength) rfl

theorem parsePrecision_case (mode : Mode) (h : st.begin ≠ []) : StepCase mode st (st.parsePrecision mode) := by
  obtain ⟨c, s, hs⟩ := List.exists_cons_of_ne_nil h
  simp only [parsePrecision, hs, deref, List.tail_cons, bind, Except.bind]
  split
  · exact .stay
  cases s with
  | nil => exact .report trivial
  | cons d rest =>
    dsimp only
    split
    · obtain ⟨f, hf, hreported⟩ | ⟨id, rest', ctx', hid, hlength, hnum⟩ := parseNestedArgId_cases mode rest st.ctx
      · rw [hf]
        exact .report hreported
      · rw [hid]
        exact .take (by rw [hs]; exact Nat.lt_succ_of_lt (Nat.lt_succ_of_lt hlength)) hnum
    split
    · exact .report trivial
    · obtain hlarge | ⟨value, rest', hnumber, hlength⟩ := parseNumber_cases (List.cons_ne_nil d rest)
      · rw [hlarge]
        exact .report trivial
      · rw [hnumber]
        exact .take (by rw [hs]; exact Nat.lt_succ_of_lt hlength) rfl

theorem fieldsOf_case (mode : Mode) (fields : SpecFields) :
    ∀ f ∈ fieldsOf mode fields, ∀ {st : ParseState}, st.begin ≠ [] → StepCase mode st (f.step st) := by
  intro f hf st h
  simp only [fieldsOf, List.mem_cons, List.not_mem_nil, or_false] at hf
  rcases hf with rfl | rfl | rfl | rfl | rfl | rfl | rfl | rfl
  · exact parseFillAlign_case h
  · exact parseSign_case h
  · exact parseFlag_case '#' (fun p => { p with alternateForm := true }) h
  · exact parseFlag_case '0' _ h
  · exact parseWidth_case mode h
  · exact parsePrecision_case mode h
  · exact parseFlag_case 'L' (fun p => { p with localeSpecificForm := true }) h
  · exact parseFlag_case 'n' (fun p => { p with clearBrackets := true }) h

/-! ## 2. The parser -/

/-- What may come of the parser. -/
inductive ParseCase (mode : Mode) (st : ParseState) : Except Failure ParseState → Prop
  | report {f} : f.Reported mode → ParseCase mode st (.error f)
  | parsed {st'} : st'.begin.length ≤ st.begin.length → st'.ctx.numArgs = st.ctx.numArgs →
    ParseCase mode st (.ok st')

theorem ParseCase.mono {st st' : ParseState} {r : Except Failure ParseState} (h : ParseCase mode st' r)
    (hlength : st'.begin.length ≤ st.begin.length) (hnum : st'.ctx.numArgs = st.ctx.numArgs) : ParseCase mode st r := by
  cases h with
  | report hf => exact .report hf
  | parsed hl hn => exact .parsed (Nat.le_trans hl hlength) (hn.trans hnum)

theorem parseType_case (h : st.begin ≠ []) : ParseCase mode st st.parseType := by
  obtain ⟨c, s, hs⟩ := List.exists_cons_of_ne_nil h
  simp only [parseType, hs, deref, bind, Except.bind]
  cases typeOf c with
  | none => exact .parsed (Nat.le_refl _) rfl
  | some t => exact .parsed (by rw [hs]; exact Nat.le_succ _) rfl

theorem parseEnd_case (fields : SpecFields) (h : st.begin ≠ []) : ParseCase mode st (parseEnd fields st) := by
  have hend : ∀ st' : ParseState, st'.begin.length ≤ st.begin.length → st'.ctx.numArgs = st.ctx.numArgs →
      ParseCase mode st (if ¬ fields.consumeAll then pure st'
        else if st'.begin ≠ [] ∧ st'.begin.head? ≠ some (code '}') then throw (.throws .consumeInput)
        else pure st') := by
    intro st' hl hn
    split
    · exact .parsed hl hn
    split
    · exact .report trivial
    · exact .parsed hl hn
  rw [parseEnd]
  split
  · have htype : ParseCase mode st st.parseType := parseType_case h
    cases hr : st.parseType with
    | error f =>
      rw [hr] at htype
      cases htype with
      | report hf => exact .report hf
    | ok st' =>
      rw [hr] at htype
      cases htype with
      | parsed hl hn => exact hend st' hl hn
  · exact hend st (Nat.le_refl _) rfl

theorem parseField_case {strict : Bool} {f : Field} {next : ParseState → Except Failure ParseState}
    (hstep : StepCase mode st (f.step st))
    (hnext : ∀ {st : ParseState}, st.begin ≠ [] → ParseCase mode st (next st)) (h : st.begin ≠ []) :
    ParseCase mode st (parseField strict f next st) := by
  unfold parseField
  split
  · cases hr : f.step st with
    | error e =>
      rw [hr] at hstep
      cases hstep with
      | report he => exact .report he
    | ok r =>
      rw [hr] at hstep
      cases hstep with
      | stay =>
        simp only [bind, Except.bind]
        rw [if_neg fun hfound => absurd hfound.1 Bool.false_ne_true]
        exact hnext h
      | @take st' hlength hnum =>
        simp only [bind, Except.bind]
        split
        · exact .parsed (Nat.le_of_lt hlength) hnum
        · rename_i hmore
          have hne : st'.begin ≠ [] := fun hnil => hmore ⟨trivial, hnil⟩
          exact (hnext hne).mono (Nat.le_of_lt hlength) hnum
  split
  · cases hr : f.step st with
    | error e =>
      rw [hr] at hstep
      cases hstep with
      | report he => exact .report he
    | ok r =>
      rw [hr] at hstep
      cases hstep with
      | stay => exact hnext h
      | take => exact .report trivial
  · exact hnext h

theorem parseFields_case {strict : Bool} (fields : SpecFields) : ∀ {fs : List Field},
    (∀ f ∈ fs, ∀ {st : ParseState}, st.begin ≠ [] → StepCase mode st (f.step st)) →
      ∀ {st : ParseState}, st.begin ≠ [] → ParseCase mode st (parseFields strict fields fs st)
  | [], _, _, h => parseEnd_case fields h
  | f :: fs, hfs, _, h => by
    obtain ⟨hf, hrest⟩ := List.forall_mem_cons.mp hfs
    exact parseField_case (hf h) (fun h => parseFields_case fields hrest h) h

/-- **The parser never reads past the end.** -/
theorem parse_case (mode : Mode) (fields : SpecFields) (st : ParseState) : ParseCase mode st (st.parse mode fields) := by
  rw [parse]
  split
  · exact .parsed (Nat.le_refl _) rfl
  · rename_i h
    exact parseFields_case fields (fieldsOf_case mode fields) fun hnil => h (.inl hnil)

/-! ## 3. Fields that are not allowed -/

/-- A character at which the rest of the parser ends: no field takes it, no type is written with it. -/
theorem parseFields_stuck {fields : SpecFields} (hall : fields.consumeAll = true) {c : ℤ}
    (htype : typeOf c = none) (hne : c ≠ code '\x7d') (hc : st.begin.head? = some c) :
    ∀ {fs : List Field}, (∀ f ∈ fs, f.allowed = true → f.step st = .ok (false, st)) →
      parseFields false fields fs st = .error (.throws .consumeInput)
  | [], _ => by
    obtain ⟨s, hs⟩ := List.head?_eq_some_iff.mp hc
    simp [parseFields, parseEnd, parseType, hs, deref, htype, hall, hne, bind, Except.bind, pure, Except.pure, throw,
      throwThe, MonadExceptOf.throw]
  | f :: fs, hfs => by
    obtain ⟨hf, hrest⟩ := List.forall_mem_cons.mp hfs
    have ih := parseFields_stuck hall htype hne hc hrest
    rw [parseFields, parseField]
    split
    · rename_i hallowed
      rw [hf hallowed]
      simpa only [bind, Except.bind, Bool.false_eq_true, false_and, if_false] using ih
    · simpa only [Bool.false_eq_true, if_false] using ih

/-- The fields that are not allowed need not be looked for: where one of them is there, the rest of the parser fails. -/
inductive Redundant (fields : SpecFields) : List Field → Prop
  | nil : Redundant fields []
  | cons {f : Field} {fs : List Field} :
    (f.allowed = false → ∀ st : ParseState, st.begin ≠ [] →
      f.step st = .ok (false, st) ∨ ∃ e, parseFields false fields fs st = .error e) →
    Redundant fields fs → Redundant fields (f :: fs)

theorem parseFields_strict {fields : SpecFields} : ∀ {fs : List Field}, Redundant fields fs →
    (∀ f ∈ fs, ∀ {st : ParseState}, st.begin ≠ [] → StepCase mode st (f.step st)) →
      ∀ {st : ParseState}, st.begin ≠ [] →
        Checks (fun _ => False) (parseFields true fields fs st) (parseFields false fields fs st)
  | [], _, _, _, _ => .refl _
  | f :: fs, .cons hf hredundant, hcases, st, h => by
    obtain ⟨hcase, hcases⟩ := List.forall_mem_cons.mp hcases
    have ih : ∀ {st : ParseState}, st.begin ≠ [] →
        Checks (fun _ => False) (parseFields true fields fs st) (parseFields false fields fs st) :=
      fun h => parseFields_strict hredundant hcases h
    rw [parseFields, parseFields, parseField, parseField]
    by_cases hallowed : f.allowed = true
    · rw [if_pos hallowed, if_pos hallowed]
      refine Checks.bind_refl fun ⟨found, st'⟩ hr => ?_
      dsimp only
      by_cases hend : found = true ∧ st'.begin = []
      · rw [if_pos hend, if_pos hend]
        exact .refl _
      · rw [if_neg hend, if_neg hend]
        refine ih ?_
        have hstep := hcase h
        rw [hr] at hstep
        cases hstep with
        | stay => exact h
        | take => exact fun hnil => hend ⟨rfl, hnil⟩
    rw [if_neg hallowed, if_neg hallowed, if_pos rfl, if_neg Bool.false_ne_true]
    have hfail : f.step st ≠ .ok (false, st) → ∀ st', parseFields false fields fs st = .ok st' → False := by
      intro hs st' hst'
      obtain hstay | ⟨e, he⟩ := hf (Bool.eq_false_iff.mpr hallowed) st h
      · exact hs hstay
      · exact absurd (he.symm.trans hst') (by simp)
    have hstep := hcase h
    cases hs : f.step st with
    | error e => exact checks_error (hfail (by rw [hs]; simp))
    | ok r =>
      rw [hs] at hstep
      cases hstep with
      | stay => exact ih h
      | take => exact checks_error (hfail (by rw [hs]; simp))

theorem parseFlag_stay {flag : Char} (set : SpecParser → SpecParser) {c : ℤ} (hc : st.begin.head? = some c)
    (hne : c ≠ code flag) : st.parseFlag flag set = .ok (false, st) := by
  obtain ⟨s, hs⟩ := List.head?_eq_some_iff.mp hc
  simp only [parseFlag, hs, deref, bind, Except.bind]
  rw [if_pos hne]
  rfl

theorem parseWidth_stay (mode : Mode) {c : ℤ} (hc : st.begin.head? = some c) (hdigit : ¬ IsDigit c)
    (hbrace : c ≠ code '\x7b') : st.parseWidth mode = .ok (false, st) := by
  obtain ⟨s, hs⟩ := List.head?_eq_some_iff.mp hc
  have hzero : c ≠ code '0' := by
    rintro rfl
    exact hdigit (by decide)
  simp only [parseWidth, hs, deref, bind, Except.bind]
  rw [if_neg hzero, if_neg hbrace, if_pos hdigit]
  rfl

theorem parsePrecision_stay (mode : Mode) {c : ℤ} (hc : st.begin.head? = some c) (hdot : c ≠ code '.') :
    st.parsePrecision mode = .ok (false, st) := by
  obtain ⟨s, hs⟩ := List.head?_eq_some_iff.mp hc
  simp only [parsePrecision, hs, deref, bind, Except.bind]
  rw [if_pos hdot]
  rfl

theorem redundant_int (mode : Mode) : Redundant .int (fieldsOf mode .int) := by
  refine .cons nofun (.cons nofun (.cons nofun (.cons nofun (.cons nofun (.cons (fun _ st h => ?_) (.cons nofun
    (.cons (fun _ st h => ?_) .nil)))))))
  all_goals obtain ⟨c, s, hs⟩ := List.exists_cons_of_ne_nil h
  all_goals have hc : st.begin.head? = some c := by rw [hs]; rfl
  · by_cases hdot : c = code '.'
    · subst hdot
      refine .inr ⟨_, parseFields_stuck rfl (by decide) (by decide) hc fun f hf hallowed => ?_⟩
      simp only [List.mem_cons, List.not_mem_nil, or_false] at hf
      obtain rfl | rfl := hf
      · exact parseFlag_stay (fun p => { p with localeSpecificForm := true }) hc (show _ ≠ code 'L' by decide)
      · exact absurd hallowed (by decide)
    · exact .inl (parsePrecision_stay mode hc hdot)
  · by_cases hn : c = code 'n'
    · subst hn
      exact .inr ⟨_, parseFields_stuck rfl (by decide) (by decide) hc fun f hf => by simp at hf⟩
    · exact .inl (parseFlag_stay (fun p => { p with clearBrackets := true }) hc hn)

/-- What a specification for strings does at the first characters of options that it does not have. -/
theorem str_stuck (mode : Mode) {c : ℤ} (hc : st.begin.head? = some c)
    (hnext : c = code '-' ∨ c = code '+' ∨ c = code ' ' ∨ c = code '#' ∨ c = code 'L' ∨ c = code 'n') {fs : List Field}
    (hfs : fs <:+ (fieldsOf mode .str).tail) : ∃ e, parseFields false .str fs st = .error e := by
  have hc' : typeOf c = none ∧ c ≠ code '\x7d' ∧ ¬ IsDigit c ∧ c ≠ code '\x7b' ∧ c ≠ code '.' := by
    rcases hnext with rfl | rfl | rfl | rfl | rfl | rfl <;> decide
  obtain ⟨htype, hne, hdigit, hbrace, hdot⟩ := hc'
  refine ⟨_, parseFields_stuck rfl htype hne hc fun f hf hallowed => ?_⟩
  have hf' := hfs.subset hf
  simp only [fieldsOf, List.tail_cons, List.mem_cons, List.not_mem_nil, or_false] at hf'
  rcases hf' with rfl | rfl | rfl | rfl | rfl | rfl | rfl
  · exact absurd hallowed (by decide)
  · exact absurd hallowed (by decide)
  · exact absurd hallowed (by decide)
  · exact parseWidth_stay mode hc hdigit hbrace
  · exact parsePrecision_stay mode hc hdot
  · exact absurd hallowed (by decide)
  · exact absurd hallowed (by decide)

theorem redundant_str (mode : Mode) : Redundant .str (fieldsOf mode .str) := by
  have hflag : ∀ (flag : Char) (set : SpecParser → SpecParser) {fs : List Field},
      (code flag = code '#' ∨ code flag = code 'L' ∨ code flag = code 'n') → fs <:+ (fieldsOf mode .str).tail →
      ∀ st : ParseState, st.begin ≠ [] →
        st.parseFlag flag set = .ok (false, st) ∨ ∃ e, parseFields false .str fs st = .error e := by
    intro flag set fs hflag hfs st h
    obtain ⟨c, s, hs⟩ := List.exists_cons_of_ne_nil h
    have hc : st.begin.head? = some c := by rw [hs]; rfl
    by_cases hne : c = code flag
    · subst hne
      exact .inr (str_stuck mode hc (.inr (.inr (.inr hflag))) hfs)
    · exact .inl (parseFlag_stay set hc hne)
  refine .cons nofun (.cons (fun _ st h => ?_) (.cons (fun _ => ?_) (.cons (fun _ st h => ?_) (.cons nofun
    (.cons nofun (.cons (fun _ => ?_) (.cons (fun _ => ?_) .nil)))))))
  · obtain ⟨c, s, hs⟩ := List.exists_cons_of_ne_nil h
    have hc : st.begin.head? = some c := by rw [hs]; rfl
    by_cases hsign : c = code '-' ∨ c = code '+' ∨ c = code ' '
    · refine .inr (str_stuck mode hc ?_ (List.suffix_cons _ _))
      rcases hsign with h | h | h
      · exact .inl h
      · exact .inr (.inl h)
      · exact .inr (.inr (.inl h))
    · rw [not_or, not_or] at hsign
      refine .inl ?_
      simp only [parseSign, hs, deref, bind, Except.bind, signOf, if_neg hsign.1, if_neg hsign.2.1, if_neg hsign.2.2]
      rfl
  · exact hflag '#' (fun p => { p with alternateForm := true }) (.inl rfl) ⟨[_, _], rfl⟩
  · obtain ⟨c, s, hs⟩ := List.exists_cons_of_ne_nil h
    have hc : st.begin.head? = some c := by rw [hs]; rfl
    by_cases hzero : c = code '0'
    · refine .inr ⟨.throws .widthLeadingZero, ?_⟩
      simp only [parseFields, parseField, parseWidth, hs, deref, bind, Except.bind, if_pos hzero]
      rfl
    · exact .inl (parseFlag_stay _ hc hzero)
  · exact hflag 'L' (fun p => { p with localeSpecificForm := true }) (.inr (.inl rfl)) ⟨[_, _, _, _, _, _], rfl⟩
  · exact hflag 'n' (fun p => { p with clearBrackets := true }) (.inr (.inr rfl)) ⟨[_, _, _, _, _, _, _], rfl⟩

/-! ## 4. Indices that are too large -/

/-- The width is taken from an argument that there is not. -/
def BadWidth (st : ParseState) : Prop := st.parser.widthAsArg = true ∧ st.ctx.numArgs ≤ st.parser.width

/-- The precision is taken from an argument that there is not. -/
def BadPrecision (st : ParseState) : Prop :=
  st.parser.precisionAsArg = true ∧ (st.ctx.numArgs : ℤ) ≤ st.parser.precision

def BadId (st : ParseState) : Prop := BadWidth st ∨ BadPrecision st

/-- What holds before a part of the parser holds after it. -/
def Keeps (P : ParseState → Prop) (next : ParseState → Except Failure ParseState) : Prop :=
  ∀ st st', P st → next st = .ok st' → P st'

variable {P : ParseState → Prop}

theorem parseField_keeps {strict : Bool} {f : Field} {next : ParseState → Except Failure ParseState}
    (hstep : ∀ st r, P st → f.step st = .ok r → P r.2) (hnext : Keeps P next) :
    Keeps P (parseField strict f next) := by
  intro st st' h heq
  rw [parseField] at heq
  split at heq
  · obtain ⟨⟨found, st₁⟩, hst₁, heq⟩ := bind_eq_ok.mp heq
    have h₁ := hstep st _ h hst₁
    dsimp only at heq
    split at heq
    · obtain rfl := Except.ok.inj heq
      exact h₁
    · exact hnext st₁ st' h₁ heq
  split at heq
  · obtain ⟨⟨found, st₁⟩, hst₁, heq⟩ := bind_eq_ok.mp heq
    dsimp only at heq
    split at heq
    · exact absurd heq (by simp [throw, throwThe, MonadExceptOf.throw])
    · exact hnext st₁ st' (hstep st _ h hst₁) heq
  · exact hnext st st' h heq

theorem parseFlag_keeps (flag : Char) (set : SpecParser → SpecParser)
    (hset : ∀ st, P st → P { st with parser := set st.parser, begin := st.begin.tail }) (st : ParseState)
    (r : Bool × ParseState) (h : P st) (heq : st.parseFlag flag set = .ok r) : P r.2 := by
  obtain ⟨c, -, heq⟩ := bind_eq_ok.mp heq
  split at heq
  · obtain rfl := Except.ok.inj heq
    exact h
  · obtain rfl := Except.ok.inj heq
    exact hset st h

theorem parseEnd_keeps (fields : SpecFields)
    (htype : ∀ st type, P st → P { st with parser.type := type, begin := st.begin.tail }) :
    Keeps P (parseEnd fields) := by
  have hend : ∀ st₁ st' : ParseState, P st₁ → (if ¬ fields.consumeAll then pure st₁
      else if st₁.begin ≠ [] ∧ st₁.begin.head? ≠ some (code '\x7d') then throw (.throws .consumeInput)
      else pure st₁ : Except Failure ParseState) = .ok st' → P st' := by
    intro st₁ st' h heq
    split_ifs at heq
    all_goals
      obtain rfl := Except.ok.inj heq
      exact h
  intro st st' h heq
  rw [parseEnd] at heq
  split at heq
  · obtain ⟨st₁, hst₁, heq⟩ := bind_eq_ok.mp heq
    refine hend st₁ st' ?_ heq
    obtain ⟨c, -, hst₁⟩ := bind_eq_ok.mp hst₁
    split at hst₁
    · obtain rfl := Except.ok.inj hst₁
      exact htype st _ h
    · obtain rfl := Except.ok.inj hst₁
      exact h
  · exact hend st st' h heq

theorem parseNestedArgId_checks (strict strict' : Bool) (s : List ℤ) (ctx : ParseContext) :
    Checks (fun r => ctx.numArgs ≤ r.1) (parseNestedArgId ⟨strict, true⟩ s ctx)
      (parseNestedArgId ⟨strict', false⟩ s ctx) := by
  cases s with
  | nil => exact .refl _
  | cons c s =>
    rw [parseNestedArgId, parseNestedArgId, if_neg (List.cons_ne_nil c s)]
    refine (parseArgId_checks strict strict' (c :: s) ctx).bind (fun _ _ => .refl _) fun r r' h heq => ?_
    obtain ⟨id, last, ctx'⟩ := r
    cases last with
    | nil => exact absurd heq (by simp [throw, throwThe, MonadExceptOf.throw])
    | cons d rest =>
      dsimp only at heq
      split at heq
      · exact absurd heq (by simp [throw, throwThe, MonadExceptOf.throw])
      · obtain rfl := Except.ok.inj heq
        exact h

/-- An index for a width or a precision leaves the number of arguments as it is. -/
theorem parseNestedArgId_numArgs {mode : Mode} {s rest : List ℤ} {ctx ctx' : ParseContext} {id : ℕ}
    (h : parseNestedArgId mode s ctx = .ok (id, rest, ctx')) : ctx'.numArgs = ctx.numArgs := by
  obtain ⟨f, hf, -⟩ | ⟨id', rest', ctx₁, heq, -, hnum⟩ := parseNestedArgId_cases mode s ctx
  · exact absurd (hf.symm.trans h) (by simp)
  · obtain ⟨rfl, rfl, rfl⟩ : id' = id ∧ rest' = rest ∧ ctx₁ = ctx' := by simpa using heq.symm.trans h
    exact hnum

theorem parseWidth_checks (strict strict' : Bool) (st : ParseState) :
    Checks (fun r => BadWidth r.2) (st.parseWidth ⟨strict, true⟩) (st.parseWidth ⟨strict', false⟩) := by
  rw [parseWidth, parseWidth]
  refine Checks.bind_refl fun c _ => ?_
  split
  · exact .refl _
  split
  · have hnested : Checks (fun r => r.2.2.numArgs ≤ r.1) (parseNestedArgId ⟨strict, true⟩ st.begin.tail st.ctx)
        (parseNestedArgId ⟨strict', false⟩ st.begin.tail st.ctx) :=
      (parseNestedArgId_checks strict strict' st.begin.tail st.ctx).mono fun r hr h => by
        rwa [parseNestedArgId_numArgs hr]
    refine hnested.bind (fun _ _ => .refl _) fun r r' h heq => ?_
    obtain rfl := Except.ok.inj heq
    exact ⟨rfl, h⟩
  · exact .refl _

theorem parsePrecision_checks (strict strict' : Bool) (st : ParseState) :
    Checks (fun r => BadPrecision r.2) (st.parsePrecision ⟨strict, true⟩) (st.parsePrecision ⟨strict', false⟩) := by
  rw [parsePrecision, parsePrecision]
  refine Checks.bind_refl fun c _ => ?_
  split
  · exact .refl _
  split
  · exact .refl _
  rename_i d rest heq
  split
  · have hnested : Checks (fun r => r.2.2.numArgs ≤ r.1) (parseNestedArgId ⟨strict, true⟩ rest st.ctx)
        (parseNestedArgId ⟨strict', false⟩ rest st.ctx) :=
      (parseNestedArgId_checks strict strict' rest st.ctx).mono fun r hr h => by
        rwa [parseNestedArgId_numArgs hr]
    refine hnested.bind (fun _ _ => .refl _) fun r r' h heq => ?_
    obtain rfl := Except.ok.inj heq
    exact ⟨rfl, Int.ofNat_le.mpr h⟩
  · exact .refl _

theorem parsePrecision_keeps (mode : Mode) (st : ParseState) (r : Bool × ParseState) (h : BadWidth st)
    (heq : st.parsePrecision mode = .ok r) : BadWidth r.2 := by
  obtain ⟨c, -, heq⟩ := bind_eq_ok.mp heq
  split at heq
  · obtain rfl := Except.ok.inj heq
    exact h
  split at heq
  · exact absurd heq (by simp [throw, throwThe, MonadExceptOf.throw])
  split at heq
  · obtain ⟨⟨value, rest, ctx⟩, hnested, heq⟩ := bind_eq_ok.mp heq
    obtain rfl := Except.ok.inj heq
    exact ⟨h.1, Nat.le_trans (Nat.le_of_eq (parseNestedArgId_numArgs hnested)) h.2⟩
  split at heq
  · exact absurd heq (by simp [throw, throwThe, MonadExceptOf.throw])
  · obtain ⟨⟨value, rest⟩, -, heq⟩ := bind_eq_ok.mp heq
    obtain rfl := Except.ok.inj heq
    exact h

theorem parseField_checks {strict : Bool} {f f' : Field} {next next' : ParseState → Except Failure ParseState}
    {bad bad' : ParseState → Prop} (hallowed : f.allowed = f'.allowed) (herror : f.error = f'.error)
    (hstep : ∀ st, Checks (fun r => bad r.2) (f.step st) (f'.step st))
    (hnext : ∀ st, Checks bad' (next st) (next' st)) (hbad : ∀ st, bad st → bad' st)
    (hkeeps : ∀ st st', bad st → next' st = .ok st' → bad' st') (st : ParseState) :
    Checks bad' (parseField strict f next st) (parseField strict f' next' st) := by
  rw [parseField, parseField, hallowed, herror]
  split
  · refine (hstep st).bind (fun ⟨found, st₁⟩ _ => ?_) fun ⟨found, st₁⟩ st' h heq => ?_
    · dsimp only
      split
      · exact .refl _
      · exact hnext st₁
    · dsimp only at heq
      split at heq
      · obtain rfl := Except.ok.inj heq
        exact hbad _ h
      · exact hkeeps st₁ st' h heq
  split
  · refine (hstep st).bind (fun ⟨found, st₁⟩ _ => ?_) fun ⟨found, st₁⟩ st' h heq => ?_
    · dsimp only
      split
      · exact .refl _
      · exact hnext st₁
    · dsimp only at heq
      split at heq
      · exact absurd heq (by simp [throw, throwThe, MonadExceptOf.throw])
      · exact hkeeps st₁ st' h heq
  · exact hnext st

/-- **A parser that verifies indices rejects the specifications with one that is too large, and no others.** -/
theorem parseFields_verify (strict : Bool) (fields : SpecFields) (st : ParseState) :
    Checks BadId (parseFields strict fields (fieldsOf ⟨strict, true⟩ fields) st)
      (parseFields strict fields (fieldsOf ⟨strict, false⟩ fields) st) := by
  have hflags : ∀ (P : ParseState → Prop)
      (_ : ∀ st p, p.widthAsArg = st.parser.widthAsArg → p.width = st.parser.width →
        p.precisionAsArg = st.parser.precisionAsArg → p.precision = st.parser.precision → P st →
        P { st with parser := p, begin := st.begin.tail }),
      Keeps P (parseFields strict fields [⟨fields.localeSpecificForm, .notAllowed "locale-specific form",
        parseLocaleSpecificForm⟩, ⟨fields.clearBrackets, .notAllowed "n", parseClearBrackets⟩]) := by
    intro P hP
    refine parseField_keeps
      (parseFlag_keeps 'L' (fun p => { p with localeSpecificForm := true }) fun st => hP st _ rfl rfl rfl rfl)
      (parseField_keeps
        (parseFlag_keeps 'n' (fun p => { p with clearBrackets := true }) fun st => hP st _ rfl rfl rfl rfl) ?_)
    exact parseEnd_keeps fields fun st type => hP st _ rfl rfl rfl rfl
  have hnone : ∀ st : ParseState, False → BadId st := fun _ h => h.elim
  have hsame : ∀ (f : Field) (next next' : ParseState → Except Failure ParseState),
      (∀ st, Checks BadId (next st) (next' st)) →
      ∀ st, Checks BadId (parseField strict f next st) (parseField strict f next' st) :=
    fun f next next' hnext => by
      have hstep : ∀ st, Checks (fun _ => False) (f.step st) (f.step st) := fun _ => .refl _
      exact parseField_checks rfl rfl hstep hnext hnone fun _ _ h => h.elim
  have hprecision := hflags BadPrecision fun st p _ _ h₃ h₄ h => ⟨h₃.trans h.1, h₄ ▸ h.2⟩
  have hwidth := hflags BadWidth fun st p h₁ h₂ _ _ h => ⟨h₁.trans h.1, h₂ ▸ h.2⟩
  refine hsame _ _ _ (hsame _ _ _ (hsame _ _ _ (hsame _ _ _ ?_))) st
  refine parseField_checks rfl rfl (parseWidth_checks strict strict) ?_ (fun _ => .inl) fun st st' h heq =>
    .inl (parseField_keeps (parsePrecision_keeps _) hwidth st st' h heq)
  exact parseField_checks rfl rfl (parsePrecision_checks strict strict) (fun _ => .refl _) (fun _ => .inr)
    fun st st' h heq => .inr (hprecision st st' h heq)

/-- **The parser of a constant expression and the one of run time.** -/
theorem parse_checks (hasConsteval : Bool) {fields : SpecFields}
    (hredundant : ∀ mode, Redundant fields (fieldsOf mode fields)) (st : ParseState) :
    Checks BadId (st.parse (.consteval hasConsteval) fields) (st.parse (.runtime hasConsteval) fields) := by
  cases hasConsteval with
  | false => exact .refl _
  | true =>
    rw [parse, parse]
    split
    · exact .refl _
    · rename_i h
      have hstrict := parseFields_strict (hredundant ⟨true, false⟩) (fieldsOf_case ⟨true, false⟩ fields)
        fun hnil => h (.inl hnil)
      exact (parseFields_verify true fields st).trans (hstrict.mono fun _ _ => False.elim)

/-! ## 5. What the parser is left with -/

section

variable (Q : SpecParser → Prop)

theorem parseField_keeps_of_not_allowed {strict : Bool} {f : Field} {next : ParseState → Except Failure ParseState}
    (hallowed : f.allowed = false) (hstay : ∀ st st', f.step st = .ok (false, st') → st' = st) (hnext : Keeps P next) :
    Keeps P (parseField strict f next) := by
  intro st st' h heq
  rw [parseField, if_neg (Bool.eq_false_iff.mp hallowed)] at heq
  split at heq
  · obtain ⟨⟨found, st₁⟩, hst₁, heq⟩ := bind_eq_ok.mp heq
    dsimp only at heq
    cases found with
    | true => exact absurd heq (by simp [throw, throwThe, MonadExceptOf.throw])
    | false =>
      rw [hstay st st₁ hst₁] at heq
      exact hnext st st' h heq
  · exact hnext st st' h heq

theorem parseFlag_stays (flag : Char) (set : SpecParser → SpecParser) (st st' : ParseState)
    (heq : st.parseFlag flag set = .ok (false, st')) : st' = st := by
  obtain ⟨c, -, heq⟩ := bind_eq_ok.mp heq
  split at heq
  · exact (congrArg Prod.snd (Except.ok.inj heq)).symm
  · exact absurd (Except.ok.inj heq) (by simp)

theorem parseSign_stays (st st' : ParseState) (heq : st.parseSign = .ok (false, st')) : st' = st := by
  obtain ⟨c, -, heq⟩ := bind_eq_ok.mp heq
  split at heq
  · exact absurd (Except.ok.inj heq) (by simp)
  · exact (congrArg Prod.snd (Except.ok.inj heq)).symm

theorem parsePrecision_stays (mode : Mode) (st st' : ParseState) (heq : st.parsePrecision mode = .ok (false, st')) :
    st' = st := by
  obtain ⟨c, -, heq⟩ := bind_eq_ok.mp heq
  split at heq
  · exact (congrArg Prod.snd (Except.ok.inj heq)).symm
  split at heq
  · exact absurd heq (by simp [throw, throwThe, MonadExceptOf.throw])
  split at heq
  · obtain ⟨r, -, heq⟩ := bind_eq_ok.mp heq
    exact absurd (Except.ok.inj heq) (by simp)
  split at heq
  · exact absurd heq (by simp [throw, throwThe, MonadExceptOf.throw])
  · obtain ⟨r, -, heq⟩ := bind_eq_ok.mp heq
    exact absurd (Except.ok.inj heq) (by simp)

theorem alignmentOf_ne {c : ℤ} {a : Alignment} (h : alignmentOf c = some a) : a ≠ .zeroPadding := by
  unfold alignmentOf at h
  split_ifs at h
  all_goals
    obtain rfl := Option.some.inj h
    decide

theorem parser_of_parseAlignment (hset : ∀ p a c, a ≠ .zeroPadding → Q p → Q { p with alignment := a, fill := c })
    (st : ParseState) (r : Bool × ParseState) (h : Q st.parser) (heq : st.parseAlignment = .ok r) : Q r.2.parser := by
  obtain ⟨c, -, heq⟩ := bind_eq_ok.mp heq
  split at heq
  · rename_i a ha
    obtain rfl := Except.ok.inj heq
    exact hset st.parser a st.parser.fill (alignmentOf_ne ha) h
  · obtain rfl := Except.ok.inj heq
    exact h

theorem parser_of_parseFillAlign (hset : ∀ p a c, a ≠ .zeroPadding → Q p → Q { p with alignment := a, fill := c })
    (st : ParseState) (r : Bool × ParseState) (h : Q st.parser) (heq : st.parseFillAlign = .ok r) : Q r.2.parser := by
  unfold parseFillAlign at heq
  split at heq
  · split at heq
    · rename_i a ha
      split at heq
      · exact absurd heq (by simp [throw, throwThe, MonadExceptOf.throw])
      · obtain rfl := Except.ok.inj heq
        exact hset st.parser a _ (alignmentOf_ne ha) h
    · exact parser_of_parseAlignment Q hset st r h heq
  · exact parser_of_parseAlignment Q hset st r h heq

theorem parser_of_parseSign (hset : ∀ p s, Q p → Q { p with sign := s }) (st : ParseState) (r : Bool × ParseState)
    (h : Q st.parser) (heq : st.parseSign = .ok r) : Q r.2.parser := by
  obtain ⟨c, -, heq⟩ := bind_eq_ok.mp heq
  split at heq
  · obtain rfl := Except.ok.inj heq
    exact hset st.parser _ h
  · obtain rfl := Except.ok.inj heq
    exact h

theorem parser_of_parseWidth (hset : ∀ p b w, Q p → Q { p with widthAsArg := b, width := w }) (mode : Mode)
    (st : ParseState) (r : Bool × ParseState) (h : Q st.parser) (heq : st.parseWidth mode = .ok r) : Q r.2.parser := by
  obtain ⟨c, -, heq⟩ := bind_eq_ok.mp heq
  split at heq
  · exact absurd heq (by simp [throw, throwThe, MonadExceptOf.throw])
  split at heq
  · obtain ⟨⟨value, rest, ctx⟩, -, heq⟩ := bind_eq_ok.mp heq
    obtain rfl := Except.ok.inj heq
    exact hset st.parser true value h
  split at heq
  · obtain rfl := Except.ok.inj heq
    exact h
  · obtain ⟨⟨value, rest⟩, -, heq⟩ := bind_eq_ok.mp heq
    obtain rfl := Except.ok.inj heq
    exact hset st.parser st.parser.widthAsArg value h

theorem parser_of_parsePrecision (hset : ∀ p b v, Q p → Q { p with precisionAsArg := b, precision := v }) (mode : Mode)
    (st : ParseState) (r : Bool × ParseState) (h : Q st.parser) (heq : st.parsePrecision mode = .ok r) :
    Q r.2.parser := by
  obtain ⟨c, -, heq⟩ := bind_eq_ok.mp heq
  split at heq
  · obtain rfl := Except.ok.inj heq
    exact h
  split at heq
  · exact absurd heq (by simp [throw, throwThe, MonadExceptOf.throw])
  split at heq
  · obtain ⟨⟨value, rest, ctx⟩, -, heq⟩ := bind_eq_ok.mp heq
    obtain rfl := Except.ok.inj heq
    exact hset st.parser true value h
  split at heq
  · exact absurd heq (by simp [throw, throwThe, MonadExceptOf.throw])
  · obtain ⟨⟨value, rest⟩, -, heq⟩ := bind_eq_ok.mp heq
    obtain rfl := Except.ok.inj heq
    exact hset st.parser false value h

end

theorem parse_keeps {mode : Mode} {fields : SpecFields}
    (h : Keeps P (parseFields mode.strict fields (fieldsOf mode fields))) : Keeps P (parse mode fields) := by
  intro st st' hst heq
  rw [parse] at heq
  split at heq
  · obtain rfl := Except.ok.inj heq
    exact hst
  · exact h st st' hst heq

theorem parse_int_precision (mode : Mode) : Keeps (fun st => st.parser.precisionAsArg = false) (parse mode .int) := by
  let Q : SpecParser → Prop := fun p => p.precisionAsArg = false
  have hend : Keeps (fun st => Q st.parser) (parseEnd .int) := parseEnd_keeps _ fun _ _ => id
  have hlocale := parseFlag_keeps (P := fun st => Q st.parser) 'L' (fun p => { p with localeSpecificForm := true })
    fun _ => id
  have hzero := parseFlag_keeps (P := fun st => Q st.parser) '0'
    (fun p => if p.alignment = .default then { p with alignment := .zeroPadding } else p) fun st h => by
      dsimp only
      split
      · exact h
      · exact h
  have halternate := parseFlag_keeps (P := fun st => Q st.parser) '#' (fun p => { p with alternateForm := true })
    fun _ => id
  refine parse_keeps (parseField_keeps (parser_of_parseFillAlign Q fun _ _ _ _ => id) ?_)
  refine parseField_keeps (parser_of_parseSign Q fun _ _ => id) (parseField_keeps halternate (parseField_keeps hzero ?_))
  refine parseField_keeps (parser_of_parseWidth Q (fun _ _ _ => id) mode) ?_
  refine parseField_keeps_of_not_allowed rfl (parsePrecision_stays mode) (parseField_keeps hlocale ?_)
  exact parseField_keeps_of_not_allowed rfl (parseFlag_stays 'n' fun p => { p with clearBrackets := true }) hend

theorem parse_str_alignment (mode : Mode) :
    Keeps (fun st => st.parser.alignment ≠ .zeroPadding) (parse mode .str) := by
  let Q : SpecParser → Prop := fun p => p.alignment ≠ .zeroPadding
  have hend : Keeps (fun st => Q st.parser) (parseEnd .str) := parseEnd_keeps _ fun _ _ => id
  refine parse_keeps (parseField_keeps (parser_of_parseFillAlign Q fun _ _ _ h _ => h) ?_)
  refine parseField_keeps_of_not_allowed rfl parseSign_stays ?_
  refine parseField_keeps_of_not_allowed rfl (parseFlag_stays '#' fun p => { p with alternateForm := true }) ?_
  refine parseField_keeps_of_not_allowed rfl
    (parseFlag_stays '0' fun p => if p.alignment = .default then { p with alignment := .zeroPadding } else p) ?_
  refine parseField_keeps (parser_of_parseWidth Q (fun _ _ _ => id) mode) ?_
  refine parseField_keeps (parser_of_parsePrecision Q (fun _ _ _ => id) mode) ?_
  refine parseField_keeps_of_not_allowed rfl (parseFlag_stays 'L' fun p => { p with localeSpecificForm := true }) ?_
  exact parseField_keeps_of_not_allowed rfl (parseFlag_stays 'n' fun p => { p with clearBrackets := true }) hend

end ParseState

end Cccl.Format
