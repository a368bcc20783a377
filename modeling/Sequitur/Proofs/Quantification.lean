import Sequitur.Proof.Dependence
import Sequitur.Proofs.Examination

/-!
# Lines by the quantifier rules

Each of the four quantifier rules is applied to one line.  What such a line does to the variables
can be told from its formula and that of the line that it cites, without a run: a universal
instantiation introduces a name that may be generalized later, an existential instantiation chooses
one, a universal generalization takes one away.

Examining a line first interprets its reason and records what that gives (`recorded`); then the
argument is verified.  `Verifies` says once what a verification that succeeds has found and changed.

## Key results

- `interpret_quantifier_iff`: which reasons become arguments by a quantifier rule
- `verifies_of_ok`: what a verification that succeeds has found and changed
- `exists_examine_ei_iff`: when an existential instantiation passes its examination
-/

namespace Sequitur

namespace Context

/-! ## What a line cites -/

/-- The line with the number `n` cites the number `m`. -/
def Cites (ctx : Context) (n m : Int) : Prop :=
  ∃ l, ctx.line? n = some l ∧ m ∈ l.reason.citations

/-! ## What a line does to the variables -/

/-- The line with the number `n` is `l`, which is by `rule` and cites the line `k` alone. -/
def From (ctx : Context) (rule : String) (n : Int) (l k : Line) : Prop :=
  ctx.line? n = some l ∧ ∃ m, l.reason = ⟨rule, [m]⟩ ∧ ctx.line? m = some k

/-- The line instantiates the universally quantified `body`, whose variable is `v`, to `w`, and does
    not put `w` where the body has it already. -/
def Introduces (ctx : Context) (n : Int) (v : Variable) (body : Formula) (w : Variable) : Prop :=
  ∃ l k, ctx.From "ui" n l k ∧ k.formula = .all v body ∧ instantiated v body l.formula = .ok w ∧
    (w = v ∨ body.uses w = false)

/-- The line instantiates an existentially quantified formula to `w`. -/
def Chooses (ctx : Context) (n : Int) (w : Variable) : Prop :=
  ∃ l k, ctx.From "ei" n l k ∧ ∃ v body, k.formula = .ex v body ∧
    instantiated v body l.formula = .ok w

/-- The line generalizes `w` to a universally quantified formula. -/
def Generalizes (ctx : Context) (n : Int) (w : Variable) : Prop :=
  ∃ l k, ctx.From "ug" n l k ∧ ∃ v body, l.formula = .all v body ∧
    instantiated v body k.formula = .ok w

variable {ctx ctx' : Context} {n : Int} {id : LineId} {reason : Reason} {arg : Argument}
  {vars : VariableContext} {q : Cited} {name : String}

/-- The line that a number stands for. -/
theorem line?_of_get? (h : ctx.lines.get? n = some id) :
    ctx.line? n = some (ctx.record id).line := by
  rw [line?, h, Option.map_some]

/-- Numbers stand for the same lines. -/
theorem Frame.line? (h : Frame ctx ctx') : ctx'.line? = ctx.line? := by
  funext n
  simp only [Context.line?, h.lines, h.line]

/-- A number stands for one line, which cites one line alone at most. -/
theorem From.unique {l k l' k' : Line} (h : ctx.From name n l k) (h' : ctx.From name n l' k') :
    l = l' ∧ k = k' := by
  obtain ⟨hl, m, hreason, hk⟩ := h
  obtain ⟨hl', m', hreason', hk'⟩ := h'
  cases hl.symm.trans hl'
  cases hreason.symm.trans hreason'
  cases hk.symm.trans hk'
  exact ⟨rfl, rfl⟩

/-- What a line is from is the same as long as the lines are. -/
private theorem Frame.from_eq (h : Frame ctx ctx') : ctx'.From = ctx.From := by
  funext rule n l k
  rw [From, From, h.line?]

/-- The names that are introduced are the same as long as the lines are. -/
theorem Frame.introduces (h : Frame ctx ctx') : ctx'.Introduces = ctx.Introduces := by
  funext n v body w
  rw [Introduces, Introduces, h.from_eq]

/-- The names that are chosen are the same. -/
theorem Frame.chooses (h : Frame ctx ctx') : ctx'.Chooses = ctx.Chooses := by
  funext n w
  rw [Chooses, Chooses, h.from_eq]

/-- The variables that are generalized are the same. -/
theorem Frame.generalizes (h : Frame ctx ctx') : ctx'.Generalizes = ctx.Generalizes := by
  funext n w
  rw [Generalizes, Generalizes, h.from_eq]

end Context

/-! ## Reasons -/

/-- The name of the quantifier rule that an argument is by, and the line that it is applied to. -/
def Argument.quantifier? : Argument → Option (String × Cited)
  | universalInstantiation q => some ("ui", q)
  | universalGeneralization q => some ("ug", q)
  | existentialInstantiation q => some ("ei", q)
  | existentialGeneralization q => some ("eg", q)
  | _ => none

/-- No quantifier rule has the name of a deduction. -/
private theorem Argument.ne_deductionName {arg : Argument} {name : String} {q : Cited}
    (h : arg.quantifier? = some (name, q)) : name ≠ deductionName := by
  cases arg <;> cases h <;> decide

/-- A rule that takes one line is applied to one line. -/
theorem Rule.exists_of_argument?_unary {r : Rule} {f : Cited → Argument}
    (hr : ∀ q, r.argument? [q] = some (f q)) {cs : List Cited} {arg : Argument}
    (h : r.argument? cs = some arg) : ∃ q, arg = f q := by
  unfold argument? at h
  split at h <;> cases h
  -- it is the rule in question, or one that does not take a single line
  all_goals first
    | exact ⟨_, Option.some.inj (hr _)⟩
    | exact absurd (hr default) (by simp [argument?])

/-- A quantifier rule is named and applied to one line. -/
private theorem Rule.argument?_quantifier {arg : Argument} {name s : String} {q : Cited}
    {cs : List Cited} (hq : arg.quantifier? = some (name, q)) :
    (∃ r, ofName? s = some r ∧ r.argument? cs = some arg) ↔ s = name ∧ cs = [q] := by
  constructor
  · rintro ⟨r, hname, harg⟩
    -- the argument tells the rule, and the rule its name
    unfold argument? at harg
    split at harg <;> cases harg <;> cases hq
    all_goals
      refine ⟨?_, rfl⟩
      unfold ofName? at hname
      split at hname <;> cases hname
      rfl
  · rintro ⟨rfl, rfl⟩
    cases arg <;> cases hq <;> exact ⟨_, rfl, rfl⟩

namespace Context

variable {ctx ctx' : Context} {n : Int} {id : LineId} {reason : Reason} {arg : Argument}
  {vars : VariableContext} {q : Cited} {name : String}

/-- A reason that has a meaning hands on what the lines that it cites have in scope. -/
theorem interpret_eq_ok :
    ctx.interpret reason = .ok (arg, vars) ↔
      ∃ ids, ctx.cite reason.citations = .ok ids ∧
        vars = VariableContext.combine (ids.map ctx.variablesOf) ∧
        (reason.rule = deductionName ∧ ctx.deduction reason.citations = .ok arg ∨
          reason.rule ≠ deductionName ∧ ∃ rule, Rule.ofName? reason.rule = some rule ∧
            rule.argument? (ids.map ctx.cited) = some arg) := by
  constructor
  · intro h
    obtain ⟨ids, hids, hways⟩ := interpret_ok h
    refine ⟨ids, hids, ?_, hways⟩
    rcases hways with ⟨hrule, harg⟩ | ⟨hrule, rule, hname, harg⟩
    · simp only [interpret, hids, if_pos hrule, harg] at h
      cases h
      rfl
    · simp only [interpret, hids, if_neg hrule, hname, harg] at h
      cases h
      rfl
  · rintro ⟨ids, hids, rfl, ⟨hrule, harg⟩ | ⟨hrule, rule, hname, harg⟩⟩
    · simp only [interpret, hids, if_pos hrule, harg]
    · simp only [interpret, hids, if_neg hrule, hname, harg]

/-- One line is cited where one number is given and stands for it. -/
theorem cite_eq_singleton {ns : List Int} {j : LineId} :
    ctx.cite ns = .ok [j] ↔ ∃ m, ns = [m] ∧ ctx.lines.get? m = some j := by
  constructor
  · intro h
    exact List.map_eq_singleton_iff.mp (map_get?_of_cite h)
  · rintro ⟨m, rfl, hm⟩
    simp only [cite, hm]

/-- A reason becomes an argument by a quantifier rule when it names the rule and cites one line. -/
theorem interpret_quantifier_iff (hq : arg.quantifier? = some (name, q)) :
    ctx.interpret reason = .ok (arg, vars) ↔
      ∃ m j, reason = ⟨name, [m]⟩ ∧ ctx.lines.get? m = some j ∧ q = ctx.cited j ∧
        vars = VariableContext.combine [ctx.variablesOf j] := by
  rw [interpret_eq_ok]
  constructor
  · rintro ⟨ids, hids, hvars, ⟨-, harg⟩ | ⟨-, hnamed⟩⟩
    · -- a deduction is by no quantifier rule
      obtain ⟨b, type, hyp, -, -, -, rfl⟩ := deduction_ok harg
      cases hq
    · obtain ⟨hrule, hcited⟩ := (Rule.argument?_quantifier hq).mp hnamed
      obtain ⟨j, rfl, hj⟩ := List.map_eq_singleton_iff.mp hcited
      obtain ⟨m, hm, hget⟩ := cite_eq_singleton.mp hids
      exact ⟨m, j, by rw [← hrule, ← hm], hget, hj.symm, hvars⟩
  · rintro ⟨m, j, rfl, hj, rfl, rfl⟩
    exact ⟨[j], cite_eq_singleton.mpr ⟨m, rfl, hj⟩, rfl,
      .inr ⟨Argument.ne_deductionName hq, (Rule.argument?_quantifier hq).mpr ⟨rfl, rfl⟩⟩⟩

/-- A reason that names a quantifier rule becomes an argument by that rule, if any. -/
private theorem exists_of_interpret_quantifier {f : Cited → Argument}
    (hf : ∀ q, (f q).quantifier? = some (name, q)) (h : ctx.interpret reason = .ok (arg, vars))
    (hrule : reason.rule = name) : ∃ q, arg = f q := by
  have hnamed (q : Cited) := (Rule.argument?_quantifier (hf q)).mpr ⟨hrule, rfl⟩
  obtain ⟨ids, -, -, ⟨hded, -⟩ | ⟨-, r, hname, harg⟩⟩ := interpret_eq_ok.mp h
  · exact absurd (hrule.symm.trans hded) (Argument.ne_deductionName (hf default))
  · refine Rule.exists_of_argument?_unary (fun q => ?_) harg
    -- the name stands for one rule
    obtain ⟨r', hname', harg'⟩ := hnamed q
    rw [hname, Option.some_inj] at hname'
    exact hname' ▸ harg'

/-! ## Verifying -/

/-- The context in which the argument for the line `id` is verified. -/
def recorded (ctx : Context) (id : LineId) (arg : Argument) (vars : VariableContext) : Context :=
  { ctx with store := (ctx.store.allocAll vars).1 }.modifyRecord id fun r =>
    { r with argument := some arg, scope := (ctx.store.allocAll vars).2 }

/-- Only the line itself gets an argument and a scope. -/
theorem record_recorded (ctx : Context) (id : LineId) (arg : Argument) (vars : VariableContext)
    (j : LineId) :
    (ctx.recorded id arg vars).record j =
      if j = id ∧ id < ctx.records.length then
        { ctx.record j with argument := some arg, scope := (ctx.store.allocAll vars).2 }
      else ctx.record j :=
  record_modifyRecord { ctx with store := (ctx.store.allocAll vars).1 } id _ j

/-- Lines stay as they are. -/
@[simp] theorem line_recorded (ctx : Context) (id : LineId) (arg : Argument)
    (vars : VariableContext) (j : LineId) :
    ((ctx.recorded id arg vars).record j).line = (ctx.record j).line := by
  rw [record_recorded]
  split <;> rfl

/-- What a reason means is recorded and verified. -/
theorem examine_of_interpret (h : ctx.interpret (ctx.record id).line.reason = .ok (arg, vars)) :
    ctx.examine id = (ctx.recorded id arg vars).verify id arg := by
  simp only [examine, h]
  rfl

/-- Examining a line interprets its reason, records what that gives and verifies it. -/
theorem examine_eq_ok :
    ctx.examine id = (.ok (), ctx') ↔
      ∃ arg vars, ctx.interpret (ctx.record id).line.reason = .ok (arg, vars) ∧
        (ctx.recorded id arg vars).verify id arg = (.ok (), ctx') := by
  unfold examine
  split
  · rename_i hinterpret
    simp [hinterpret]
  · rename_i arg vars hinterpret
    simp only [hinterpret, Except.ok.injEq, Prod.mk.injEq]
    constructor
    · intro h
      exact ⟨arg, vars, ⟨rfl, rfl⟩, h⟩
    · rintro ⟨_, _, ⟨rfl, rfl⟩, h⟩
      exact h

/-- The context after the name `c` was brought into the scope of the line `id`, depending on
    nothing. -/
def bring (ctx : Context) (id : LineId) (c : String) : Context :=
  { ctx with store := (ctx.store.alloc []).1 }.modifyRecord id fun r =>
    { r with scope := r.scope.put c (ctx.store.alloc []).2 }

/-- A universal instantiation finds a variable and brings it into scope, unless the body has it
    already. -/
private theorem verifyUI_ok (h : ctx.verifyUI id q = (.ok (), ctx')) :
    ∃ v body w, q.formula = .all v body ∧
      instantiated v body (ctx.record id).line.formula = .ok w ∧
      ((w = v ∨ body.uses w = false) ∧ ctx' = ctx.bring id w.name ∨
        ¬ (w = v ∨ body.uses w = false) ∧ ctx' = ctx) := by
  unfold verifyUI at h
  split at h
  · rename_i v body hf
    split at h
    · cases h
    · rename_i w hinst
      refine ⟨v, body, w, hf, hinst, ?_⟩
      split at h
      · rename_i hnew
        cases h
        exact .inl ⟨hnew, rfl⟩
      · rename_i hold
        cases h
        exact .inr ⟨hold, rfl⟩
  · cases h

/-- The context after the name `c` was taken out of the scope of the line `id`. -/
def release (ctx : Context) (id : LineId) (c : String) : Context :=
  ctx.modifyRecord id fun r => { r with scope := r.scope.erase c }

/-- A universal generalization finds a variable that is in scope and takes it out of scope. -/
theorem verifyUG_eq_ok :
    ctx.verifyUG id q = (.ok (), ctx') ↔
      ∃ v body w s, (ctx.record id).line.formula = .all v body ∧
        instantiated v body q.formula = .ok w ∧ (ctx.record id).scope.contains w.name = true ∧
        body.symbols = .ok s ∧ ctx' = ctx.release id w.name := by
  constructor
  · intro h
    rw [verifyUG_eq] at h
    -- refused are other formulas, what is no instance, names out of scope and quantified holes
    split at h
    · rename_i v body hf
      split at h
      · cases h
      · rename_i w hinst
        split at h
        · rename_i hscope
          split at h
          · cases h
          · rename_i s hs
            cases h
            exact ⟨v, body, w, s, hf, hinst, hscope, hs, rfl⟩
        · cases h
    · cases h
  · rintro ⟨v, body, w, s, hf, hinst, hscope, hs, rfl⟩
    simp only [verifyUG_eq, hf, hinst, hscope, hs, if_true, release]

/-- The context after the dependence sets of the line `id` were changed. -/
def changeSets (ctx : Context) (id : LineId) (f : List String → List String) : Context :=
  { ctx with store := ctx.store.modifyAll (ctx.record id).scope f }

/-- An existential instantiation finds a variable that is not in use, on which everything in scope
    depends from then on. -/
private theorem verifyEI_eq_ok :
    ctx.verifyEI id q = (.ok (), ctx') ↔
      ∃ v body w, q.formula = .ex v body ∧
        instantiated v body (ctx.record id).line.formula = .ok w ∧ w ∉ ctx.constants ∧
        ctx' = ctx.changeSets id fun s => addName s w.name := by
  constructor
  · intro h
    unfold verifyEI at h
    split at h
    · rename_i v body hf
      split at h
      · cases h
      · rename_i w hinst
        split at h
        · cases h
        · rename_i hfresh
          cases h
          exact ⟨v, body, w, hf, hinst, hfresh, rfl⟩
    · cases h
  · rintro ⟨v, body, w, hf, hinst, hfresh, rfl⟩
    simp only [verifyEI, hf, hinst, if_neg hfresh, changeSets]

/-- The context after the line `id` has taken over the dependence sets of the line `j`. -/
def takeOver (ctx : Context) (id j : LineId) : Context :=
  ctx.modifyRecord id fun r => { r with scope := r.scope.putAll (ctx.record j).scope }

/-- An existential generalization takes over the dependence sets of the cited line and drops the
    variable that it finds from all of them. -/
theorem verifyEG_eq_ok :
    ctx.verifyEG id q = (.ok (), ctx') ↔
      ∃ v body w, (ctx.record id).line.formula = .ex v body ∧
        instantiated v body q.formula = .ok w ∧
        ctx' = (ctx.takeOver id q.id).changeSets id fun s => dropName s w.name := by
  -- taking over sets does not change what is on the line
  have hline : ((ctx.takeOver id q.id).record id).line = (ctx.record id).line :=
    (quiet_modifyRecord ctx id _).line id
  rw [← hline]
  constructor
  · intro h
    unfold verifyEG at h
    simp only at h
    split at h
    · rename_i v body hf
      split at h
      · cases h
      · rename_i w hinst
        cases h
        exact ⟨v, body, w, hf, hinst, rfl⟩
    · cases h
  · rintro ⟨v, body, w, hf, hinst, rfl⟩
    unfold takeOver at hf
    simp only [verifyEG, hf, hinst, takeOver, changeSets]

/-- The answer of a quantifier rule is passed on with its refusal as a failure. -/
theorem of_mapError_eq_ok {r : Except Refusal Unit × Context}
    (h : (r.1.mapError Failure.refusal, r.2) = (.ok (), ctx')) : r = (.ok (), ctx') := by
  rw [Prod.mk.injEq, mapError_eq_ok] at h
  exact Prod.ext h.1 h.2

/-- What a verification that succeeds may have found and changed. -/
inductive Verifies (ctx : Context) (id : LineId) : Argument → Context → Prop
  | ui {p : Cited} {v body w} (universal : p.formula = .all v body)
      (found : instantiated v body (ctx.record id).line.formula = .ok w)
      (fresh : w = v ∨ body.uses w = false) :
      Verifies ctx id (.universalInstantiation p) (ctx.bring id w.name)
  | ui_again {p : Cited} {v body w} (universal : p.formula = .all v body)
      (found : instantiated v body (ctx.record id).line.formula = .ok w)
      (used : ¬ (w = v ∨ body.uses w = false)) : Verifies ctx id (.universalInstantiation p) ctx
  | ug {p : Cited} {v body w} (universal : (ctx.record id).line.formula = .all v body)
      (found : instantiated v body p.formula = .ok w)
      (in_scope : (ctx.record id).scope.contains w.name = true) :
      Verifies ctx id (.universalGeneralization p) (ctx.release id w.name)
  | ei {p : Cited} {v body w} (existential : p.formula = .ex v body)
      (found : instantiated v body (ctx.record id).line.formula = .ok w) :
      Verifies ctx id (.existentialInstantiation p) (ctx.changeSets id fun s => addName s w.name)
  | eg {p : Cited} (w : Variable) :
      Verifies ctx id (.existentialGeneralization p)
        ((ctx.takeOver id p.id).changeSets id fun s => dropName s w.name)
  | formulas {a : Argument} (other : a.quantifier? = none) (standing : Bindings) :
      Verifies ctx id a { ctx with standing := standing }

/-- What a verification that succeeds has found and changed. -/
theorem verifies_of_ok (h : ctx.verify id arg = (.ok (), ctx')) : Verifies ctx id arg ctx' := by
  unfold verify at h
  split at h
  · obtain ⟨v, body, w, hf, hinst, ⟨hnew, rfl⟩ | ⟨hold, rfl⟩⟩ := verifyUI_ok (of_mapError_eq_ok h)
    · exact .ui hf hinst hnew
    · exact .ui_again hf hinst hold
  · obtain ⟨v, body, w, s, hf, hinst, hscope, -, rfl⟩ := verifyUG_eq_ok.mp (of_mapError_eq_ok h)
    exact .ug hf hinst hscope
  · obtain ⟨v, body, w, hf, hinst, -, rfl⟩ := verifyEI_eq_ok.mp (of_mapError_eq_ok h)
    exact .ei hf hinst
  · obtain ⟨v, body, w, -, -, rfl⟩ := verifyEG_eq_ok.mp (of_mapError_eq_ok h)
    exact .eg w
  · -- the other arguments are about formulas, and the lines stay as they are
    rename_i hui hug hei heg
    have hother : arg.quantifier? = none := by
      cases arg <;> first | rfl | simp_all
    unfold verifyFormulas at h
    simp only at h
    split at h <;> cases h
    exact .formulas hother _

/-- Verifying does not take variables to be in use. -/
theorem constants_examine (h : ctx.examine id = (.ok (), ctx')) :
    ctx'.constants = ctx.constants := by
  obtain ⟨arg, vars, -, hverify⟩ := examine_eq_ok.mp h
  cases verifies_of_ok hverify <;> rfl

/-! ## When a line is accepted -/

/-- A line that names a quantifier rule passes its examination when it cites one line and the
    argument from that line is verified. -/
theorem examine_quantifier_iff {f : Cited → Argument}
    (hf : ∀ q, (f q).quantifier? = some (name, q))
    (hrule : (ctx.record id).line.reason.rule = name) :
    ctx.examine id = (.ok (), ctx') ↔
      ∃ m j, (ctx.record id).line.reason = ⟨name, [m]⟩ ∧ ctx.lines.get? m = some j ∧
        (ctx.recorded id (f (ctx.cited j)) (.combine [ctx.variablesOf j])).verify id
          (f (ctx.cited j)) = (.ok (), ctx') := by
  rw [examine_eq_ok]
  constructor
  · rintro ⟨arg, vars, hinterpret, hverify⟩
    obtain ⟨q, rfl⟩ := exists_of_interpret_quantifier hf hinterpret hrule
    obtain ⟨m, j, hreason, hj, rfl, rfl⟩ := (interpret_quantifier_iff (hf q)).mp hinterpret
    exact ⟨m, j, hreason, hj, hverify⟩
  · rintro ⟨m, j, hreason, hj, hverify⟩
    exact ⟨_, _, (interpret_quantifier_iff (hf _)).mpr ⟨m, j, hreason, hj, rfl, rfl⟩, hverify⟩

section

variable (hget : ctx.lines.get? n = some id)
  (h : ctx.interpret (ctx.record id).line.reason = .ok (arg, vars)) {v w : Variable}
  {body : Formula}

include hget h

/-- What a line by a quantifier rule is from is told by its argument. -/
private theorem exists_from_iff {f : Cited → Argument}
    (hf : ∀ q, (f q).quantifier? = some (name, q)) (P : Line → Formula → Prop) :
    (∃ l k, ctx.From name n l k ∧ P l k.formula) ↔
      ∃ q, arg = f q ∧ P (ctx.record id).line q.formula := by
  simp only [From, line?_of_get? hget, Option.some_inj]
  constructor
  · -- the reason has one meaning, and it is the argument by this rule
    rintro ⟨_, k, ⟨rfl, m, hreason, hk⟩, hP⟩
    obtain ⟨j, hj, rfl⟩ := Option.map_eq_some_iff.mp hk
    have hinterpret := (interpret_quantifier_iff (hf (ctx.cited j))).mpr
      ⟨m, j, hreason, hj, rfl, rfl⟩
    rw [h] at hinterpret
    cases hinterpret
    exact ⟨ctx.cited j, rfl, hP⟩
  · rintro ⟨q, rfl, hP⟩
    obtain ⟨m, j, hreason, hj, rfl, -⟩ := (interpret_quantifier_iff (hf q)).mp h
    exact ⟨_, _, ⟨rfl, m, hreason, line?_of_get? hj⟩, hP⟩

/-- Whether a line introduces a name is told by its argument. -/
theorem introduces_iff :
    ctx.Introduces n v body w ↔ ∃ q, arg = .universalInstantiation q ∧ q.formula = .all v body ∧
      instantiated v body (ctx.record id).line.formula = .ok w ∧ (w = v ∨ body.uses w = false) :=
  exists_from_iff hget h (fun _ => rfl) fun l g => g = .all v body ∧
    instantiated v body l.formula = .ok w ∧ (w = v ∨ body.uses w = false)

/-- Whether a line chooses a name is told by its argument. -/
theorem chooses_iff :
    ctx.Chooses n w ↔ ∃ q, arg = .existentialInstantiation q ∧ ∃ v body, q.formula = .ex v body ∧
      instantiated v body (ctx.record id).line.formula = .ok w :=
  exists_from_iff hget h (fun _ => rfl) fun l g => ∃ v body, g = .ex v body ∧
    instantiated v body l.formula = .ok w

/-- Whether a line generalizes a variable is told by its argument. -/
theorem generalizes_iff :
    ctx.Generalizes n w ↔ ∃ q, arg = .universalGeneralization q ∧ ∃ v body,
      (ctx.record id).line.formula = .all v body ∧ instantiated v body q.formula = .ok w :=
  exists_from_iff hget h (fun _ => rfl) fun l g => ∃ v body, l.formula = .all v body ∧
    instantiated v body g = .ok w

end

/-- An existential instantiation passes when it chooses a variable that is not in use. -/
theorem exists_examine_ei_iff (hget : ctx.lines.get? n = some id)
    (hrule : (ctx.record id).line.reason.rule = "ei") :
    (∃ ctx', ctx.examine id = (.ok (), ctx')) ↔ ∃ w, ctx.Chooses n w ∧ w ∉ ctx.constants := by
  simp only [examine_quantifier_iff (f := .existentialInstantiation) (fun _ => rfl) hrule, verify,
    Prod.mk.injEq, mapError_eq_ok]
  constructor
  · rintro ⟨ctx', m, j, hreason, hj, hverify⟩
    obtain ⟨v, body, w, hf, hinst, hfresh, -⟩ := verifyEI_eq_ok.mp (Prod.ext hverify.1 hverify.2)
    rw [line_recorded] at hinst
    exact ⟨w, ⟨_, _, ⟨line?_of_get? hget, m, hreason, line?_of_get? hj⟩, v, body, hf, hinst⟩,
      hfresh⟩
  · rintro ⟨w, ⟨l, k, ⟨hl, m, hreason, hk⟩, v, body, hf, hinst⟩, hfresh⟩
    -- the two lines of the choice are the one examined and the one that it cites
    rw [line?_of_get? hget, Option.some_inj] at hl
    subst hl
    obtain ⟨j, hj, rfl⟩ := Option.map_eq_some_iff.mp hk
    rw [← line_recorded ctx id (.existentialInstantiation (ctx.cited j))
      (.combine [ctx.variablesOf j])] at hinst
    have hverify := verifyEI_eq_ok (q := ctx.cited j).mpr ⟨v, body, w, hf, hinst, hfresh, rfl⟩
    exact ⟨_, m, j, hreason, hj, congrArg Prod.fst hverify, congrArg Prod.snd hverify⟩

end Context

end Sequitur
