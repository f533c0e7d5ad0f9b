/-
# Validation of a format string

The validation of a format string in a constant expression and the run-time call go through the same loop.  What the
validation rejects, the call rejects for any values, for each check of the validation is one that the call makes, too.

The other way round one check is missing: of a handle, which is an integer of more than 64 bits, the validation does not
look at the argument that the width is taken from.  So a format string that it accepts fails for structural reasons if
and only if the width of a handle is taken from an argument of a type that it may not have (`faithful_iff`).
-/
import Cccl.Format.Values

namespace Cccl.Format

open IntegerTypes

/-! ## 1. The two calls -/

section

variable (m : DataModel) (C : IntegerType) (hasConsteval : Bool) (fmt : List ℤ)

/-- The validation of a format string for arguments of some types. -/
def validate (types : List ArgumentType) : Except Failure Unit :=
  vformatTo (.consteval hasConsteval) (validationContext (.consteval hasConsteval) (types.map (determineArgT m))) fmt
    types.length ()

/-- The call for some arguments. -/
def format (args : List (Argument m C)) : Except Failure (List ℤ) :=
  vformatTo (.runtime hasConsteval) (runtimeContext m C (.runtime hasConsteval) (args.map (makeFormatArg m C))) fmt
    args.length []

/-- **What validation is for**: if it accepts, the call fails for the sake of values only; if it rejects, the call
throws for all values. -/
structure Faithful (types : List ArgumentType) : Prop where
  accepted : validate m hasConsteval fmt types = .ok () → ∀ args : List (Argument m C), args.map Argument.type = types →
    SucceedsOr FormatError.OfValue (format m C hasConsteval fmt args)
  rejected : validate m hasConsteval fmt types ≠ .ok () → ∀ args : List (Argument m C),
    args.map Argument.type = types → ∃ e, format m C hasConsteval fmt args = .error (.throws e)

end

/-- The context of the validation, which notes the arguments that the widths of handles are taken from. -/
def widthsContext (mode : Mode) (types : List ArgT) : FormatContext (List ℕ) where
  visit id parse ctx ids :=
    match types[id]? with
    | none => throw (.throws .argIndexTooLarge)
    | some t =>
      match t.formatter with
      | none => throw (.throws .argIndexTooLarge)
      | some f =>
        if t = .handle then do
          let (p, ctx) ← f.parse mode ctx
          pure (ctx, if p.widthAsArg then ids ++ [p.width] else ids)
        else if parse then do
          let ctx ← validateVisit mode types t f ctx
          pure (ctx, ids)
        else pure (ctx, ids)
  put ids _ := ids

/-- The arguments that the widths of handles are taken from, in a format string that is accepted. -/
def handleWidths (m : DataModel) (hasConsteval : Bool) (fmt : List ℤ) (types : List ArgumentType) : List ℕ :=
  match vformatTo (.consteval hasConsteval) (widthsContext (.consteval hasConsteval) (types.map (determineArgT m))) fmt
    types.length [] with
  | .ok ids => ids
  | .error _ => []

/-- The widths of handles are taken from arguments that they may be taken from. -/
def HandleWidthsStandard (m : DataModel) (hasConsteval : Bool) (fmt : List ℤ) (types : List ArgumentType) : Prop :=
  ∀ id ∈ handleWidths m hasConsteval fmt types, StandardAt (types.map (determineArgT m)) id

/-! ## 2. Contexts that forget -/

section

variable {ω ω' : Type} {mode : Mode} {F : FormatContext ω} {G : FormatContext ω'} {φ : ω → ω'}

theorem handleReplacementField_map
    (hvisit : ∀ n parse ctx out, G.visit n parse ctx (φ out) = Prod.map id φ <$> F.visit n parse ctx out)
    (s : List ℤ) (ctx : ParseContext) (out : ω) : handleReplacementField mode G s ctx (φ out) =
      Prod.map id (Prod.map id φ) <$> handleReplacementField mode F s ctx out := by
  rw [handleReplacementField, handleReplacementField]
  cases parseArgId mode s ctx with
  | error f => rfl
  | ok r =>
    obtain ⟨id, last, ctx⟩ := r
    cases last with
    | nil => rfl
    | cons c rest =>
      simp only [bind, Except.bind]
      split
      · rw [hvisit]
        cases F.visit id (decide (c = code ':')) _ out with
        | error f => rfl
        | ok r =>
          obtain ⟨⟨rest, indexing, next, numArgs⟩, out⟩ := r
          cases rest with
          | nil => rfl
          | cons d rest =>
            by_cases hclose : d = code '\x7d'
            · simp [Functor.map, Except.map, hclose, pure, Except.pure]
            · simp [Functor.map, Except.map, hclose, throw, throwThe, MonadExceptOf.throw]
      · rfl

theorem vformatLoop_nil (fuel : ℕ) (ctx : ParseContext) (out : ω) : vformatLoop mode F fuel [] ctx out = .ok out := by
  cases fuel <;> rfl

theorem vformatLoop_map
    (hvisit : ∀ n parse ctx out, G.visit n parse ctx (φ out) = Prod.map id φ <$> F.visit n parse ctx out)
    (hput : ∀ out c, G.put (φ out) c = φ (F.put out c)) : ∀ (fuel : ℕ) (s : List ℤ) (ctx : ParseContext) (out : ω),
      vformatLoop mode G fuel s ctx (φ out) = φ <$> vformatLoop mode F fuel s ctx out
  | fuel, [], ctx, out => by
    rw [vformatLoop_nil, vformatLoop_nil]
    rfl
  | 0, _ :: _, _, _ => rfl
  | fuel + 1, c :: s, ctx, out => by
    have ih := vformatLoop_map hvisit hput fuel
    simp only [vformatLoop]
    by_cases hopen : c = code '\x7b'
    · rw [if_pos hopen, if_pos hopen]
      cases s with
      | nil => rfl
      | cons d rest =>
        dsimp only
        by_cases hescaped : d = code '\x7b'
        · rw [if_neg (not_not_intro hescaped), if_neg (not_not_intro hescaped), hput, ih]
        · rw [if_pos hescaped, if_pos hescaped, handleReplacementField_map hvisit]
          cases handleReplacementField mode F (d :: rest) ctx out with
          | error f => rfl
          | ok r => exact ih _ _ _
    rw [if_neg hopen, if_neg hopen]
    by_cases hclose : c = code '\x7d'
    · rw [if_pos hclose, if_pos hclose]
      cases s with
      | nil => rfl
      | cons d rest =>
        dsimp only
        by_cases hescaped : d = code '\x7d'
        · rw [if_neg (not_not_intro hescaped), if_neg (not_not_intro hescaped), hput, ih]
        · rw [if_pos hescaped, if_pos hescaped]
          rfl
    · rw [if_neg hclose, if_neg hclose, hput, ih]

theorem validationContext_visit (mode : Mode) (types : List ArgT) (n : ℕ) (parse : Bool) (ctx : ParseContext)
    (ids : List ℕ) : (validationContext mode types).visit n parse ctx () =
      Prod.map id (fun _ => ()) <$> (widthsContext mode types).visit n parse ctx ids := by
  unfold validationContext widthsContext
  dsimp only
  cases types[n]? with
  | none => rfl
  | some t =>
    dsimp only
    cases t.formatter with
    | none => rfl
    | some f =>
      dsimp only
      split
      · cases f.parse mode ctx <;> rfl
      split
      · cases validateVisit mode types t f ctx <;> rfl
      · rfl

theorem validate_eq (m : DataModel) (hasConsteval : Bool) (fmt : List ℤ) (types : List ArgumentType) :
    validate m hasConsteval fmt types = (fun _ => ()) <$> vformatTo (.consteval hasConsteval)
      (widthsContext (.consteval hasConsteval) (types.map (determineArgT m))) fmt types.length [] :=
  vformatLoop_map (fun n parse ctx ids => validationContext_visit _ _ n parse ctx ids) (fun _ _ => rfl) _ _ _ []

end

/-! ## 3. Simulation -/

/-- All of these arguments are such that a width may be taken from them. -/
def Good (types : List ArgT) (ids : List ℕ) : Prop := ∀ n ∈ ids, StandardAt types n

/-- A part of the validation, which notes widths, and the same part of the call.  If the validation fails, the call
throws; if it succeeds, the call does the same or throws one of some errors, and if a width was noted that is not
standard, the call throws because of it. -/
inductive Sim {α β : Type} (types : List ArgT) (E : FormatError → Prop) (ids : α → List ℕ) (same : α → β → Prop) :
    Except Failure α → Except Failure β → Prop
  | rejected {f e} : Sim types E ids same (.error f) (.error (.throws e))
  | accepted {a b} : Good types (ids a) → same a b → Sim types E ids same (.ok a) (.ok b)
  | fails {a e} : E e ∨ ¬ Good types (ids a) ∧ e.OfWidth → Sim types E ids same (.ok a) (.error (.throws e))

/-- **Parts in sequence.**  Widths that were noted are not forgotten. -/
theorem Sim.bind {α β γ δ : Type} {types : List ArgT} {E : FormatError → Prop} {ids : α → List ℕ} {ids' : γ → List ℕ}
    {same : α → β → Prop} {same' : γ → δ → Prop} {v : Except Failure α} {r : Except Failure β}
    {kv : α → Except Failure γ} {kr : β → Except Failure δ} (h : Sim types E ids same v r)
    (hk : ∀ a b, Good types (ids a) → same a b → Sim types E ids' same' (kv a) (kr b))
    (hmono : ∀ a c, kv a = .ok c → Good types (ids' c) → Good types (ids a)) :
    Sim types E ids' same' (v >>= kv) (r >>= kr) := by
  cases h with
  | rejected => exact .rejected
  | @accepted a b hgood hsame => exact hk a b hgood hsame
  | @fails a e he =>
    change Sim types E ids' same' (kv a) (.error (.throws e))
    cases hc : kv a with
    | error f => exact .rejected
    | ok c => exact .fails (he.imp_right fun h => ⟨fun hgood => h.1 (hmono a c hc hgood), h.2⟩)

section

variable {m : DataModel} {C : IntegerType} {hasConsteval : Bool} {E : FormatError → Prop} {args : List FormatArg}

theorem checkDynamic_eq_ok {types : List ArgT} {asArg : Bool} {n : ℕ} {u : Unit} :
    checkDynamic types asArg n = .ok u ↔ (asArg = true → StandardAt types n) := by
  unfold checkDynamic StandardAt
  cases asArg with
  | false => exact ⟨fun _ => nofun, fun _ => rfl⟩
  | true =>
    cases types[n]? with
    | none => exact ⟨nofun, fun h => absurd (h rfl) (by simp)⟩
    | some t =>
      dsimp only
      rw [if_pos rfl]
      cases hstandard : t.isStandardInteger with
      | true => exact ⟨fun _ _ => ⟨t, rfl, hstandard⟩, fun _ => rfl⟩
      | false => exact ⟨nofun, fun h => absurd (h rfl) (by simp [hstandard])⟩

theorem validateVisit_eq_ok {mode : Mode} {types : List ArgT} {t : ArgT} {f : Formatter} {ctx ctx' ctx₁ : ParseContext}
    {p : SpecParser} (hf : t.formatter = some f) (hp : f.parse mode ctx = .ok (p, ctx')) :
    validateVisit mode types t f ctx = .ok ctx₁ ↔ GoodIds types p ∧ ctx₁ = ctx' := by
  have hready := Formatter.ready_of_parse hp
  have hstr : (t = .constCharTypePtr ∨ t = .stringView) ↔ f = .str := by
    cases t <;> cases f <;> simp_all [ArgT.formatter]
  rw [validateVisit, hp]
  constructor
  · intro h
    obtain ⟨⟨⟩, hwidth, h⟩ := bind_eq_ok.mp (show checkDynamic types p.widthAsArg p.width >>= _ = _ from h)
    have hwidth := checkDynamic_eq_ok.mp hwidth
    split at h
    · obtain ⟨⟨⟩, hprecision, h⟩ := bind_eq_ok.mp h
      exact ⟨⟨hwidth, checkDynamic_eq_ok.mp hprecision⟩, (Except.ok.inj h).symm⟩
    · rename_i hnot
      have hprecision := hready.precision fun h => hnot (hstr.mpr h)
      exact ⟨⟨hwidth, fun h => absurd (hprecision.symm.trans h) Bool.false_ne_true⟩, (Except.ok.inj h).symm⟩
  · rintro ⟨⟨hwidth, hprecision⟩, rfl⟩
    have hw : checkDynamic types p.widthAsArg p.width = .ok () := checkDynamic_eq_ok.mpr hwidth
    have hp : checkDynamic types p.precisionAsArg p.precision.toNat = .ok () := checkDynamic_eq_ok.mpr hprecision
    simp only [bind, Except.bind, hw, hp]
    split <;> rfl

theorem written_sim {ids : List ℕ} {f : Formatter} {p : SpecParser} {arg : FormatArg} {ctx' : ParseContext}
    (hf : arg.type.formatter = some f) (hready : f.Ready p) (hraises : ∀ arg ∈ args, arg.Raises m C E)
    (harg : arg ∈ args) (hids : GoodIds (args.map FormatArg.type) p)
    (hgood : Good (args.map FormatArg.type) ids) {P : ParseContext → Prop} (hctx : P ctx') (out : List ℤ) :
    Sim (args.map FormatArg.type) E Prod.snd (fun a b => a.1 = b.1 ∧ P a.1) (.ok (ctx', ids))
      (do
        let written ← formatArg m C args arg p
        pure (ctx', out ++ written)) := by
  obtain ⟨written, hwritten⟩ | ⟨e, he, hE⟩ := formatArg_of_good hf hready (hraises arg harg) hraises hids
  · rw [hwritten]
    exact .accepted hgood ⟨rfl, hctx⟩
  · rw [he]
    exact .fails (.inl hE)

/-- An argument whose width or precision is of a type that it may not be. -/
theorem formatArg_of_bad {f : Formatter} {p : SpecParser} {arg : FormatArg} (hf : arg.type.formatter = some f)
    (hready : f.Ready p) (hids : ¬ GoodIds (args.map FormatArg.type) p) :
    ∃ e, formatArg m C args arg p = .error (.throws e) := by
  obtain ⟨e, he⟩ := getParsedStdSpec_of_bad hids
  exact ⟨e, formatArg_of_error hf hready he⟩

theorem not_goodIds_of_badIds {types : List ArgT} {p : SpecParser} (h : Formatter.BadIds p types.length) :
    ¬ GoodIds types p := by
  intro hids
  obtain ⟨hasArg, hle⟩ | ⟨hasArg, hle⟩ := h
  · obtain ⟨t, ht, -⟩ := hids.width hasArg
    exact absurd (List.getElem?_eq_none hle) (by rw [ht]; exact nofun)
  · obtain ⟨t, ht, -⟩ := hids.precision hasArg
    exact absurd (List.getElem?_eq_none (show types.length ≤ p.precision.toNat by omega)) (by rw [ht]; exact nofun)

/-- A context that is as far as another one, or farther. -/
def Follows (ctx ctx' : ParseContext) : Prop := ctx'.begin.length ≤ ctx.begin.length ∧ ctx'.numArgs = ctx.numArgs

theorem runtimeContext_visit {n : ℕ} {f : Formatter} {mode : Mode} (hf : (getArg args n).type.formatter = some f)
    (parse : Bool) (ctx : ParseContext) (out : List ℤ) : (runtimeContext m C mode args).visit n parse ctx out = (do
      let (p, ctx) ← if parse = true ∨ (getArg args n).type = .handle then f.parse mode ctx else pure (f.parser, ctx)
      let written ← formatArg m C args (getArg args n) p
      pure (ctx, out ++ written)) := by
  unfold runtimeContext
  dsimp only
  rw [hf]

theorem runtimeContext_visit_none {n : ℕ} {mode : Mode} (hf : (getArg args n).type.formatter = none)
    (parse : Bool) (ctx : ParseContext) (out : List ℤ) :
    (runtimeContext m C mode args).visit n parse ctx out = .error (.throws .argIndexTooLarge) := by
  unfold runtimeContext
  dsimp only
  rw [hf]
  rfl

/-- **A replacement field**, in the validation and in the call. -/
theorem visit_sim (hraises : ∀ arg ∈ args, arg.Raises m C E) {ids : List ℕ}
    (hgood : Good (args.map FormatArg.type) ids) {ctx : ParseContext} (hnum : ctx.numArgs = args.length) (n : ℕ)
    (parse : Bool) (out : List ℤ) :
    Sim (args.map FormatArg.type) E Prod.snd (fun a b => a.1 = b.1 ∧ Follows ctx a.1)
      ((widthsContext (.consteval hasConsteval) (args.map FormatArg.type)).visit n parse ctx ids)
      ((runtimeContext m C (.runtime hasConsteval) args).visit n parse ctx out) := by
  cases ht : (args.map FormatArg.type)[n]? with
  | none =>
    have harg := getArg_of_none ht
    rw [runtimeContext_visit_none (by rw [harg]; rfl)]
    simp only [widthsContext, ht]
    exact .rejected
  | some t =>
    obtain ⟨htype, hmem⟩ := getArg_of_some ht
    cases hf : t.formatter with
    | none =>
      rw [runtimeContext_visit_none (by rw [htype, hf])]
      simp only [widthsContext, ht, hf]
      exact .rejected
    | some f =>
      have hf' : (getArg args n).type.formatter = some f := by rw [htype, hf]
      rw [runtimeContext_visit hf', htype]
      simp only [widthsContext, ht, hf]
      have hruntime := Formatter.parse_case (.runtime hasConsteval) f ctx
      have hchecks := Formatter.parse_checks hasConsteval f ctx
      by_cases hparse : parse = true ∨ t = .handle
      swap
      · -- the field has no specification
        rw [not_or] at hparse
        rw [if_neg hparse.2, if_neg hparse.1, if_neg (not_or.mpr hparse)]
        have hids : GoodIds (args.map FormatArg.type) f.parser := by
          cases f <;> exact ⟨nofun, nofun⟩
        exact written_sim hf' f.ready_of_initial hraises hmem hids hgood ⟨Nat.le_refl _, rfl⟩ out
      rw [if_pos hparse]
      cases hp : f.parse (.consteval hasConsteval) ctx with
      | error e =>
        -- the specification is rejected by the call, or an index in it is too large
        rw [hp] at hchecks
        have hcall : ∃ e, (do
            let (p, ctx) ← f.parse (.runtime hasConsteval) ctx
            let written ← formatArg m C args (getArg args n) p
            pure (ctx, out ++ written) : Except Failure (ParseContext × List ℤ)) = .error (.throws e) := by
          cases hr : f.parse (.runtime hasConsteval) ctx with
          | error e' =>
            rw [hr] at hruntime
            cases hruntime with
            | report he =>
              cases e' with
              | throws e => exact ⟨e, rfl⟩
              | verify => exact absurd he Bool.false_ne_true
              | _ => exact he.elim
          | ok r =>
            rw [hr] at hruntime
            cases hruntime with
            | @parsed p ctx' hready _ hnum' =>
              have hbad : Formatter.BadIds p ctx'.numArgs := hchecks _ hr
              have hlength : ctx'.numArgs = (args.map FormatArg.type).length := by rw [hnum', hnum, List.length_map]
              rw [hlength] at hbad
              obtain ⟨e, he⟩ := formatArg_of_bad (m := m) (C := C) hf' hready (not_goodIds_of_badIds hbad)
              exact ⟨e, by simp only [bind, Except.bind, he]⟩
        obtain ⟨e', he'⟩ := hcall
        rw [he']
        split
        · exact .rejected
        · rename_i hhandle
          rw [if_pos (hparse.resolve_right hhandle), validateVisit, hp]
          exact .rejected
      | ok r =>
        obtain ⟨p, ctx'⟩ := r
        rw [hp] at hchecks
        have hp' := hchecks.ok
        rw [hp'] at hruntime ⊢
        cases hruntime with
        | parsed hready hlength hnum' =>
          have hfollows : Follows ctx ctx' := ⟨hlength, hnum'⟩
          by_cases hids : GoodIds (args.map FormatArg.type) p
          · split
            · -- the width of the handle is fine
              refine written_sim hf' hready hraises hmem hids ?_ hfollows out
              dsimp only
              split
              · rename_i hasArg
                exact List.forall_mem_append.mpr ⟨hgood, List.forall_mem_singleton.mpr (hids.width hasArg)⟩
              · exact hgood
            · rename_i hhandle
              rw [if_pos (hparse.resolve_right hhandle), (validateVisit_eq_ok hf hp).mpr ⟨hids, rfl⟩]
              exact written_sim hf' hready hraises hmem hids hgood hfollows out
          · split
            · -- nothing was said about the width of the handle
              rename_i hhandle
              have hne : f ≠ .str := by
                rintro rfl
                rw [hhandle] at hf
                exact nomatch hf
              have hprecision := hready.precision hne
              have hwidth : p.widthAsArg = true ∧ ¬ StandardAt (args.map FormatArg.type) p.width := by
                by_contra hnot
                rw [not_and, not_not] at hnot
                exact hids ⟨hnot, fun h => absurd (hprecision.symm.trans h) Bool.false_ne_true⟩
              obtain ⟨e, he, hofWidth⟩ := getParsedStdSpec_of_bad_width hwidth.1 hwidth.2
              have he' : formatArg m C args (getArg args n) p = .error (.throws e) := formatArg_of_error hf' hready he
              simp only [bind, Except.bind, he']
              refine .fails (.inr ⟨fun hgood' => hwidth.2 (hgood' p.width ?_), hofWidth⟩)
              dsimp only
              rw [if_pos hwidth.1]
              exact List.mem_append_right _ (List.mem_singleton_self _)
            · rename_i hhandle
              obtain ⟨e, he⟩ := formatArg_of_bad (m := m) (C := C) hf' hready hids
              rw [if_pos (hparse.resolve_right hhandle)]
              cases hv : validateVisit (.consteval hasConsteval) (args.map FormatArg.type) t f ctx with
              | ok ctx₁ => exact absurd ((validateVisit_eq_ok hf hp).mp hv).1 hids
              | error e' =>
                simp only [bind, Except.bind, he]
                exact .rejected

/-! ## 4. The loop -/

theorem widthsContext_mono {mode : Mode} {types : List ArgT} {n : ℕ} {parse : Bool} {ctx ctx' : ParseContext}
    {ids ids' : List ℕ} (h : (widthsContext mode types).visit n parse ctx ids = .ok (ctx', ids')) : ids ⊆ ids' := by
  unfold widthsContext at h
  dsimp only at h
  split at h
  · exact nomatch h
  split at h
  · exact nomatch h
  split at h
  · obtain ⟨⟨p, ctx₁⟩, -, h⟩ := bind_eq_ok.mp h
    obtain ⟨-, rfl⟩ : _ ∧ _ = ids' := by simpa using Except.ok.inj h
    split
    · exact List.subset_append_left _ _
    · exact List.Subset.refl _
  split at h
  · obtain ⟨ctx₁, -, h⟩ := bind_eq_ok.mp h
    obtain ⟨-, rfl⟩ : _ ∧ _ = ids' := by simpa using Except.ok.inj h
    exact List.Subset.refl _
  · obtain ⟨-, rfl⟩ : _ ∧ _ = ids' := by simpa using Except.ok.inj h
    exact List.Subset.refl _

theorem handleReplacementField_mono {mode mode' : Mode} {types : List ArgT} {s s' : List ℤ} {ctx ctx' : ParseContext}
    {ids ids' : List ℕ}
    (h : handleReplacementField mode (widthsContext mode' types) s ctx ids = .ok (s', ctx', ids')) : ids ⊆ ids' := by
  obtain ⟨⟨id, last, ctx₁⟩, -, h⟩ := bind_eq_ok.mp h
  cases last with
  | nil => exact nomatch h
  | cons c rest =>
    dsimp only at h
    split at h
    · obtain ⟨⟨⟨rest, indexing, next, num⟩, ids₁⟩, hvisit, h⟩ := bind_eq_ok.mp h
      cases rest with
      | nil => exact nomatch h
      | cons d rest =>
        dsimp only at h
        split at h
        · exact nomatch h
        · obtain ⟨-, -, rfl⟩ : _ ∧ _ ∧ _ = ids' := by simpa using Except.ok.inj h
          exact widthsContext_mono hvisit
    · exact nomatch h

theorem vformatLoop_mono {mode mode' : Mode} {types : List ArgT} : ∀ {fuel : ℕ} {s : List ℤ} {ctx : ParseContext}
    {ids ids' : List ℕ}, vformatLoop mode (widthsContext mode' types) fuel s ctx ids = .ok ids' → ids ⊆ ids'
  | fuel, [], ctx, ids, ids', h => by
    rw [vformatLoop_nil] at h
    exact (Except.ok.inj h) ▸ List.Subset.refl ids
  | 0, _ :: _, _, _, _, h => nomatch h
  | fuel + 1, c :: s, ctx, ids, ids', h => by
    simp only [vformatLoop] at h
    split at h
    · cases s with
      | nil => exact nomatch h
      | cons d rest =>
        dsimp only at h
        split at h
        · obtain ⟨⟨s', ctx', ids₁⟩, hfield, h⟩ := bind_eq_ok.mp h
          exact List.Subset.trans (handleReplacementField_mono hfield) (vformatLoop_mono h)
        · exact vformatLoop_mono h
    split at h
    · cases s with
      | nil => exact nomatch h
      | cons d rest =>
        dsimp only at h
        split at h
        · exact nomatch h
        · exact vformatLoop_mono h
    · exact vformatLoop_mono h

theorem parseArgId_modes (hasConsteval : Bool) (s : List ℤ) (ctx : ParseContext) :
    Checks (fun r => ctx.numArgs ≤ r.1) (parseArgId (.consteval hasConsteval) s ctx)
      (parseArgId (.runtime hasConsteval) s ctx) := by
  cases hasConsteval with
  | false => exact .refl _
  | true => exact parseArgId_checks true false s ctx

theorem handleReplacementField_sim (hraises : ∀ arg ∈ args, arg.Raises m C E) {ids : List ℕ}
    (hgood : Good (args.map FormatArg.type) ids) {s : List ℤ} (hs : s ≠ []) {ctx : ParseContext}
    (hnum : ctx.numArgs = args.length) (out : List ℤ) :
    Sim (args.map FormatArg.type) E (fun a => a.2.2)
      (fun a b => a.1 = b.1 ∧ a.2.1 = b.2.1 ∧ a.1.length < s.length ∧ a.2.1.numArgs = args.length)
      (handleReplacementField (.consteval hasConsteval)
        (widthsContext (.consteval hasConsteval) (args.map FormatArg.type)) s ctx ids)
      (handleReplacementField (.runtime hasConsteval) (runtimeContext m C (.runtime hasConsteval) args) s ctx out) := by
  have hchecks := parseArgId_modes hasConsteval s ctx
  rw [handleReplacementField, handleReplacementField]
  obtain ⟨f, hf, hreported⟩ | ⟨id, last, ctx', hid, hlast, hnum'⟩ := parseArgId_cases (.runtime hasConsteval) hs ctx
  · obtain ⟨e, rfl⟩ : ∃ e, f = .throws e := by
      cases f with
      | throws e => exact ⟨e, rfl⟩
      | verify => exact absurd hreported Bool.false_ne_true
      | _ => exact hreported.elim
    rw [hf]
    cases hw : parseArgId (.consteval hasConsteval) s ctx with
    | error f => exact .rejected
    | ok r =>
      rw [hw] at hchecks
      exact absurd (hf.symm.trans hchecks.ok) (by simp)
  rw [hid]
  cases hw : parseArgId (.consteval hasConsteval) s ctx with
  | error f =>
    -- the index is too large
    rw [hw] at hchecks
    have hlarge : args.length ≤ id := hnum ▸ hchecks _ hid
    have harg : getArg args id = .none :=
      getArg_of_none (List.getElem?_eq_none (by rwa [List.length_map]))
    cases last with
    | nil => exact .rejected
    | cons c rest =>
      simp only [bind, Except.bind]
      split
      · rw [runtimeContext_visit_none (by rw [harg]; rfl)]
        exact .rejected
      · exact .rejected
  | ok r =>
    rw [hw] at hchecks
    obtain rfl : r = (id, last, ctx') := Except.ok.inj (hchecks.ok.symm.trans hid)
    cases last with
    | nil => exact .rejected
    | cons c rest =>
      simp only [bind, Except.bind]
      split
      swap
      · exact .rejected
      have hctx : ({ ctx' with begin := if decide (c = code ':') = true then rest else c :: rest } :
          ParseContext).numArgs = args.length := hnum'.trans hnum
      refine Sim.bind (visit_sim hraises hgood hctx id _ out) ?_ ?_
      · rintro ⟨⟨rest', indexing, next, num⟩, ids'⟩ ⟨ctx₁, out'⟩ hgood' ⟨rfl, hlength, hnum₁⟩
        cases rest' with
        | nil => exact .rejected
        | cons d rest' =>
          dsimp only
          split
          · exact .rejected
          · refine .accepted hgood' ⟨rfl, rfl, ?_, hnum₁.trans (hnum'.trans hnum)⟩
            have hrest : (if decide (c = code ':') = true then rest else c :: rest).length ≤ (c :: rest).length := by
              split
              · exact Nat.le_succ _
              · exact Nat.le_refl _
            have hshort : (d :: rest').length ≤ s.length := Nat.le_trans hlength (Nat.le_trans hrest hlast)
            exact hshort
      · rintro ⟨⟨rest', indexing, next, num⟩, ids'⟩ r h hgood'
        cases rest' with
        | nil => exact nomatch h
        | cons d rest' =>
          dsimp only at h
          split at h
          · exact nomatch h
          · obtain rfl := Except.ok.inj h
            exact hgood'

/-- **The loop**, in the validation and in the call. -/
theorem vformatLoop_sim (hraises : ∀ arg ∈ args, arg.Raises m C E) : ∀ {fuel : ℕ} {s : List ℤ} {ctx : ParseContext}
    {ids : List ℕ} {out : List ℤ}, s.length ≤ fuel → ctx.numArgs = args.length →
      Good (args.map FormatArg.type) ids →
      Sim (args.map FormatArg.type) E id (fun _ _ => True)
        (vformatLoop (.consteval hasConsteval) (widthsContext (.consteval hasConsteval) (args.map FormatArg.type)) fuel
          s ctx ids)
        (vformatLoop (.runtime hasConsteval) (runtimeContext m C (.runtime hasConsteval) args) fuel s ctx out)
  | fuel, [], ctx, ids, out, _, _, hgood => by
    rw [vformatLoop_nil, vformatLoop_nil]
    exact .accepted hgood trivial
  | 0, _ :: _, _, _, _, hfuel, _, _ => absurd hfuel (Nat.not_succ_le_zero _)
  | fuel + 1, c :: s, ctx, ids, out, hfuel, hnum, hgood => by
    have hs : s.length ≤ fuel := Nat.le_of_succ_le_succ hfuel
    simp only [vformatLoop]
    split
    · cases s with
      | nil => exact .rejected
      | cons d rest =>
        dsimp only
        split
        · refine (handleReplacementField_sim hraises hgood (List.cons_ne_nil d rest) hnum out).bind ?_ ?_
          · rintro ⟨s', ctx', ids'⟩ ⟨s'', ctx'', out'⟩ hgood' ⟨rfl, rfl, hlength, hnum'⟩
            exact vformatLoop_sim hraises (by omega) hnum' hgood'
          · rintro ⟨s', ctx', ids'⟩ ids'' h hgood' n hn
            exact hgood' n (vformatLoop_mono h hn)
        · exact vformatLoop_sim hraises (Nat.le_of_succ_le hs) hnum hgood
    split
    · cases s with
      | nil => exact .rejected
      | cons d rest =>
        dsimp only
        split
        · exact .rejected
        · exact vformatLoop_sim hraises (Nat.le_of_succ_le hs) hnum hgood
    · exact vformatLoop_sim hraises hs hnum hgood

end

/-! ## 5. When validation does what it is for -/

section

variable {m : DataModel} {C : IntegerType}

theorem makeFormatArg_type (arg : Argument m C) : (makeFormatArg m C arg).type = determineArgT m arg.type := by
  cases arg with
  | integer T v h =>
    simp only [makeFormatArg, Argument.type, determineArgT]
    split_ifs <;> rfl
  | _ => rfl

theorem map_makeFormatArg_type {args : List (Argument m C)} {types : List ArgumentType}
    (h : args.map Argument.type = types) :
    (args.map (makeFormatArg m C)).map FormatArg.type = types.map (determineArgT m) := by
  rw [← h, List.map_map, List.map_map]
  exact List.map_congr_left fun arg _ => makeFormatArg_type arg

theorem format_sim (hasConsteval : Bool) (fmt : List ℤ) {E : FormatError → Prop} {args : List (Argument m C)}
    {types : List ArgumentType} (h : args.map Argument.type = types)
    (hraises : ∀ arg ∈ args.map (makeFormatArg m C), arg.Raises m C E) :
    Sim (types.map (determineArgT m)) E id (fun _ _ => True)
      (vformatTo (.consteval hasConsteval) (widthsContext (.consteval hasConsteval) (types.map (determineArgT m))) fmt
        types.length []) (format m C hasConsteval fmt args) := by
  have hlength : types.length = args.length := by rw [← h, List.length_map]
  rw [format, vformatTo, vformatTo, hlength, ← map_makeFormatArg_type h]
  exact vformatLoop_sim hraises (Nat.le_refl _) (List.length_map _).symm nofun

theorem has_zero (T : IntegerType) : T.Has m 0 := IntegerType.has_of_le (v := 0) (Nat.zero_le _)

/-- Zeros of all types. -/
def Argument.zero (m : DataModel) (C : IntegerType) : ArgumentType → Argument m C
  | .bool => .bool false
  | .char => .char 0 (has_zero C)
  | .narrowChar => .narrowChar 0
  | .integer T => .integer T 0 (has_zero T)
  | .charPtr => .charPtr []
  | .stringView => .stringView []
  | .charArray => .charArray []

theorem Argument.type_zero (t : ArgumentType) : (Argument.zero m C t).type = t := by
  cases t <;> rfl

theorem raises_zero (t : ArgumentType) : (makeFormatArg m C (Argument.zero m C t)).Raises m C fun _ => False := by
  have hcast : ∀ T : IntegerType, T.staticCast m 0 = 0 := fun T => IntegerType.staticCast_of_has (has_zero T)
  have hnumber : SucceedsOr (fun _ => False) (substituteNumber 0) := .inl ⟨0, rfl⟩
  cases t with
  | integer T =>
    simp only [Argument.zero, makeFormatArg, hcast]
    split
    · exact ⟨hnumber, .inl (has_zero C)⟩
    · exact ⟨hnumber, .inl (has_zero C)⟩
    · exact ⟨hnumber, .inl (has_zero C)⟩
    · exact ⟨hnumber, .inl (has_zero C)⟩
    · exact .inl (has_zero C)
  | _ => trivial

/-- **Validation does what it is for** if and only if the widths of handles are taken from integers of at most 64
bits. -/
theorem faithful_iff (m : DataModel) (C : IntegerType) (hasConsteval : Bool) (fmt : List ℤ) (types : List ArgumentType) :
    Faithful m C hasConsteval fmt types ↔ HandleWidthsStandard m hasConsteval fmt types := by
  have hvalues : ∀ {args : List (Argument m C)}, ∀ arg ∈ args.map (makeFormatArg m C),
      arg.Raises m C FormatError.OfValue := fun arg _ => arg.raises_ofValue
  unfold HandleWidthsStandard handleWidths
  constructor
  · intro hfaithful
    -- zeros fail for structural reasons only
    have hzeros : (types.map (Argument.zero m C)).map Argument.type = types := by
      rw [List.map_map]
      exact (List.map_congr_left fun t _ => Argument.type_zero t).trans (List.map_id types)
    have hraises : ∀ arg ∈ (types.map (Argument.zero m C)).map (makeFormatArg m C),
        arg.Raises m C fun _ => False := by
      intro arg harg
      rw [List.map_map] at harg
      obtain ⟨t, -, rfl⟩ := List.mem_map.mp harg
      exact raises_zero t
    have hsim := format_sim hasConsteval fmt hzeros hraises
    have haccepted := hfaithful.accepted
    rw [validate_eq] at haccepted
    cases hw : vformatTo (.consteval hasConsteval)
        (widthsContext (.consteval hasConsteval) (types.map (determineArgT m))) fmt types.length [] with
    | error f => exact nofun
    | ok ids =>
      rw [hw] at hsim haccepted
      have hcall := haccepted rfl _ hzeros
      cases hf : format m C hasConsteval fmt (types.map (Argument.zero m C)) with
      | ok out =>
        rw [hf] at hsim
        cases hsim with
        | accepted hgood => exact hgood
      | error e =>
        rw [hf] at hsim hcall
        cases hsim with
        | @fails _ e he =>
          obtain ⟨out, hout⟩ | ⟨e', he', hvalue⟩ := hcall
          · exact absurd hout (by simp)
          · obtain rfl : e = e' := by simpa using he'
            obtain ⟨-, hwidth⟩ := he.resolve_left id
            cases e <;> first | exact hvalue.elim | exact hwidth.elim
  · intro hgood
    constructor
    · intro hvalid args hargs
      have hsim := format_sim hasConsteval fmt hargs hvalues
      rw [validate_eq] at hvalid
      cases hw : vformatTo (.consteval hasConsteval)
          (widthsContext (.consteval hasConsteval) (types.map (determineArgT m))) fmt types.length [] with
      | error f => exact absurd hvalid (by rw [hw]; exact nofun)
      | ok ids =>
        rw [hw] at hsim hgood
        cases hf : format m C hasConsteval fmt args with
        | ok out => exact .inl ⟨out, rfl⟩
        | error e =>
          rw [hf] at hsim
          cases hsim with
          | fails he => exact .inr ⟨_, rfl, he.resolve_right fun h => h.1 hgood⟩
    · intro hinvalid args hargs
      have hsim := format_sim hasConsteval fmt hargs hvalues
      rw [validate_eq] at hinvalid
      cases hw : vformatTo (.consteval hasConsteval)
          (widthsContext (.consteval hasConsteval) (types.map (determineArgT m))) fmt types.length [] with
      | ok ids => exact absurd (by rw [hw]; rfl) hinvalid
      | error f =>
        rw [hw] at hsim
        cases hf : format m C hasConsteval fmt args with
        | ok out =>
          rw [hf] at hsim
          exact nomatch hsim
        | error e =>
          rw [hf] at hsim
          cases hsim with
          | rejected => exact ⟨_, rfl⟩

/-- The width of a 128-bit integer that is taken from a truth value: the validation accepts it, the call throws. -/
theorem not_faithful_handle : ¬ Faithful .lp64 ⟨.char, true⟩ true ("\x7b:\x7b\x7d\x7d".toList.map code)
    [.integer ⟨.int128, true⟩, .bool] := by
  have hvalid : validate .lp64 true ("\x7b:\x7b\x7d\x7d".toList.map code) [.integer ⟨.int128, true⟩, .bool] =
      .ok () := by decide
  have hcall : format .lp64 ⟨.char, true⟩ true ("\x7b:\x7b\x7d\x7d".toList.map code)
      [.integer ⟨.int128, true⟩ 42 (by decide), .bool true] = .error (.throws .notInteger) := by decide +kernel
  intro h
  have haccepted := h.accepted hvalid [.integer ⟨.int128, true⟩ 42 (by decide), .bool true] rfl
  rw [hcall] at haccepted
  obtain ⟨out, hout⟩ | ⟨e, he, hvalue⟩ := haccepted
  · exact nomatch hout
  · obtain rfl : FormatError.notInteger = e := by simpa using he
    exact hvalue

end

end Cccl.Format
