import Sequitur.Proofs.Scopes
import Sequitur.Proofs.Standing

/-!
# The answer of an examination

Whether a line passes its examination depends on little of the context: the formula of the line, the
argument that its reason becomes, and, for two of the quantifier rules, the variables in use and the
names that the cited lines hand on.  `Argument.verdict` is the answer as a function of these alone.

What is in use hinders choices only, and what is in scope helps universal generalizations only.  So
the answer can be compared between contexts that differ in both.

## Key results

- `fst_verify`, `fst_examine`: the answer of a verification and of an examination
- `verdict_of_subset`: with more names in scope an argument still passes
- `verify_error`: what a verification that fails has changed
-/

namespace Sequitur

/-- The answer that an argument gets for a line with the formula `f`, where `used` are the variables
    in use and `names` the names that the line has in scope. -/
def Argument.verdict (f : Formula) (used : List Variable) (names : List String)
    (standing : Bindings) : Argument → Except Failure Unit
  | universalInstantiation q =>
    match q.formula with
    | .all v body => ((Context.instantiated v body f).map fun _ => ()).mapError .refusal
    | _ => .error (.refusal .citedNotUniversal)
  | universalGeneralization q =>
    match f with
    | .all v body =>
      match Context.instantiated v body q.formula with
      | .error r => .error (.refusal r)
      | .ok w =>
        if w.name ∈ names then (body.symbols.map fun _ => ()).mapError .refusal
        else .error (.refusal (.notInstantiated v))
    | _ => .error (.refusal .notUniversal)
  | existentialInstantiation q =>
    match q.formula with
    | .ex v body =>
      match Context.instantiated v body f with
      | .error r => .error (.refusal r)
      | .ok w => if w ∈ used then .error (.refusal (.notFresh w)) else .ok ()
    | _ => .error (.refusal .citedNotExistential)
  | existentialGeneralization q =>
    match f with
    | .ex v body => ((Context.instantiated v body q.formula).map fun _ => ()).mapError .refusal
    | _ => .error (.refusal .notExistential)
  | arg =>
    match (arg.typecheck standing f).1 with
    | .error e => .error e
    | .ok true => .ok ()
    | .ok false => .error (.refusal (.unproductive (arg.label?.getD "") f))

namespace Argument

variable {arg : Argument} {f : Formula} {used used' : List Variable} {names names' : List String}
  {standing : Bindings}

/-- Other arguments than by quantifier rules are judged by formulas alone. -/
theorem verdict_of_not_isQuantifier (h : arg.isQuantifier = false) :
    arg.verdict f used names standing =
      match (arg.typecheck standing f).1 with
      | .error e => .error e
      | .ok true => .ok ()
      | .ok false => .error (.refusal (.unproductive (arg.label?.getD "") f)) := by
  cases arg <;> first | rfl | cases h

/-- Only universal generalizations look at what is in scope, and only choices at what is in use. -/
theorem verdict_congr (hnames : ∀ q, arg = .universalGeneralization q → ∀ c, c ∈ names' ↔ c ∈ names)
    (hused : ∀ q, arg = .existentialInstantiation q → ∀ w, w ∈ used' ↔ w ∈ used) :
    arg.verdict f used' names' standing = arg.verdict f used names standing := by
  cases arg with
  | universalGeneralization q => simp only [verdict, hnames q rfl]
  | existentialInstantiation q => simp only [verdict, hused q rfl]
  | _ => rfl

/-- An argument that passes passes where more names are in scope, unless it is a choice. -/
theorem verdict_of_subset (h : arg.verdict f used names standing = .ok ()) (hnames : names ⊆ names')
    (hchoice : ∀ q v body w, arg = .existentialInstantiation q → q.formula = .ex v body →
      Context.instantiated v body f = .ok w → w ∉ used') :
    arg.verdict f used' names' standing = .ok () := by
  cases arg with
  | universalGeneralization q =>
    simp only [verdict] at h ⊢
    split at h
    · rename_i v body
      split at h
      · cases h
      · rename_i w hw
        split at h
        · -- the name that is generalized is still in scope
          rename_i hin
          rwa [if_pos (hnames hin)]
        · cases h
    · cases h
  | existentialInstantiation q =>
    simp only [verdict] at h ⊢
    split at h
    · rename_i v body hq
      split at h
      · cases h
      · rename_i w hw
        -- for a choice it is assumed that the variable is not in use
        rw [if_neg (hchoice q v body w rfl hq hw)]
    · cases h
  | _ => exact h

/-- An argument that fails fails where more variables are in use, unless it is a universal
    generalization. -/
theorem verdict_error_of_subset {e : Failure} (h : arg.verdict f used names standing = .error e)
    (hused : used ⊆ used') (hother : ∀ q, arg ≠ .universalGeneralization q) :
    arg.verdict f used' names' standing = .error e := by
  cases arg with
  | universalGeneralization q => exact absurd rfl (hother q)
  | existentialInstantiation q =>
    simp only [verdict] at h ⊢
    split at h
    · rename_i v body hq
      split at h
      · -- no instance, wherever it is looked at
        rename_i r hr
        simpa only [hq, hr] using h
      · rename_i w hw
        split at h
        · rename_i hin
          -- the variable was in use before
          simpa only [hq, hw, if_pos (hused hin)] using h
        · cases h
    · exact h
  | _ => exact h

end Argument

namespace Context

variable {ctx ctx' : Context} {id : LineId} {arg : Argument} {vars : VariableContext}

/-- A verification answers by the verdict on its argument. -/
theorem fst_verify :
    (ctx.verify id arg).1 =
      arg.verdict (ctx.record id).line.formula ctx.constants (ctx.record id).scope.keys
        ctx.standing := by
  cases hq : arg.isQuantifier with
  | false =>
    rw [verify_of_not_isQuantifier hq, Argument.verdict_of_not_isQuantifier hq, verifyFormulas]
    rcases arg.typecheck ctx.standing (ctx.record id).line.formula with ⟨_ | _ | _, σ⟩ <;> rfl
  | true =>
    -- the rules and their verdicts ask the same in the same order
    cases arg with
    | universalInstantiation q =>
      simp only [verify, verifyUI, Argument.verdict]
      cases q.formula with
      | all v body =>
        simp only
        cases instantiated v body (ctx.record id).line.formula with
        | error r => rfl
        | ok w =>
          simp only
          split <;> rfl
      | _ => rfl
    | universalGeneralization q =>
      simp only [verify, verifyUG_eq, Argument.verdict]
      cases (ctx.record id).line.formula with
      | all v body =>
        simp only
        cases instantiated v body q.formula with
        | error r => rfl
        | ok w =>
          simp only [Table.contains_iff]
          split
          · cases body.symbols <;> rfl
          · rfl
      | _ => rfl
    | existentialInstantiation q =>
      simp only [verify, verifyEI, Argument.verdict]
      cases q.formula with
      | ex v body =>
        simp only
        cases instantiated v body (ctx.record id).line.formula with
        | error r => rfl
        | ok w =>
          simp only
          split <;> rfl
      | _ => rfl
    | existentialGeneralization q =>
      -- the sets are taken over before the formula is looked at
      have hline : ((ctx.modifyRecord id fun r =>
          { r with scope := r.scope.putAll (ctx.record q.id).scope }).record id).line =
          (ctx.record id).line := (quiet_modifyRecord ctx id _).line id
      simp only [verify, verifyEG, Argument.verdict, hline]
      cases (ctx.record id).line.formula with
      | ex v body =>
        simp only
        cases instantiated v body q.formula <;> rfl
      | _ => rfl
    | _ => cases hq

/-- An examination answers by the verdict on the argument that the reason becomes. -/
theorem fst_examine (hlt : id < ctx.records.length)
    (h : ctx.interpret (ctx.record id).line.reason = .ok (arg, vars)) :
    (ctx.examine id).1 =
      arg.verdict (ctx.record id).line.formula ctx.constants vars.keys ctx.standing := by
  rw [examine_of_interpret h, fst_verify, line_recorded, scope_recorded_self hlt]
  refine Argument.verdict_congr (fun _ _ c => ?_) fun _ _ _ => Iff.rfl
  rw [(Store.allocates_allocAll ctx.store vars).mem_keys]
  exact or_iff_right List.not_mem_nil

/-- An argument by formulas alone changes nothing. -/
theorem snd_verify_of_not_isQuantifier (hq : arg.isQuantifier = false) :
    (ctx.verify id arg).2 = ctx := by
  have hstanding := standing_verifyFormulas ctx id arg
  rw [verify_of_not_isQuantifier hq]
  revert hstanding
  unfold verifyFormulas
  simp only
  split <;> rintro ⟨⟩ <;> rfl

/-- A verification that fails changes nothing, except that an existential generalization has taken
    over the dependence sets of the cited line. -/
theorem verify_error {e : Failure} (h : ctx.verify id arg = (.error e, ctx')) :
    ctx' = ctx ∨ ∃ q, arg = .existentialGeneralization q ∧ ctx' = ctx.takeOver id q.id := by
  cases hq : arg.isQuantifier with
  | false =>
    have hkept : (ctx.verify id arg).2 = ctx := snd_verify_of_not_isQuantifier hq
    rw [h] at hkept
    exact .inl hkept
  | true =>
    -- only an existential generalization changes anything before it is sure to pass
    cases arg with
    | universalInstantiation q =>
      simp only [verify, verifyUI] at h
      split at h
      · split at h
        · cases h
          exact .inl rfl
        · split at h <;> cases h
      · cases h
        exact .inl rfl
    | universalGeneralization q =>
      simp only [verify, verifyUG_eq] at h
      split at h
      · split at h
        · cases h
          exact .inl rfl
        · split at h
          · split at h <;> cases h
            exact .inl rfl
          · cases h
            exact .inl rfl
      · cases h
        exact .inl rfl
    | existentialInstantiation q =>
      simp only [verify, verifyEI] at h
      split at h
      · split at h
        · cases h
          exact .inl rfl
        · split at h <;> cases h
          exact .inl rfl
      · cases h
        exact .inl rfl
    | existentialGeneralization q =>
      simp only [verify, verifyEG] at h
      split at h
      · split at h <;> cases h
        exact .inr ⟨q, rfl, rfl⟩
      · cases h
        exact .inr ⟨q, rfl, rfl⟩
    | _ => cases hq

end Context

end Sequitur
