import Sequitur.Formula.Symbols
import Sequitur.Proof.Context
import Sequitur.Renaming

/-!
# Examining a line

A line is examined in two steps.  Its reason is interpreted in the context, which gives an argument
and the variable context that the cited lines hand on; both are recorded.  Then the argument is
verified.  What a verification has changed before it refuses stays changed.

The quantifier rules keep the variable contexts:

* universal instantiation brings in the variable that it finds, depending on nothing, unless the
  formula already mentions that variable;
* existential instantiation makes every name in scope depend on the variable that it finds, which
  must not be in use;
* existential generalization takes over the dependence sets of the cited line and removes the
  variable that it finds from all of them;
* universal generalization takes the variable that it finds out of scope.  It looks for the names
  that this variable depends on among the symbols of the formula, where it finds none.
-/

namespace Sequitur.Context

/-- The lines that numbers stand for. -/
def cite (ctx : Context) : List Int → Except Fault (List LineId)
  | [] => .ok []
  | n :: ns =>
    match ctx.lines.get? n with
    | none => .error (.missingLine n)
    | some id =>
      match ctx.cite ns with
      | .error f => .error f
      | .ok ids => .ok (id :: ids)

/-- A line as an argument cites it. -/
def cited (ctx : Context) (id : LineId) : Cited :=
  let line := (ctx.record id).line
  ⟨id, line.number, line.formula⟩

/-- The argument of a deduction from the block with these line numbers. -/
def deduction (ctx : Context) (citations : List Int) : Except Failure Argument :=
  match ctx.registered.get? (sortNumbers citations) with
  | none =>
    -- a refusal names the range that the citations span
    match citations.min?, citations.max? with
    | some lo, some hi => .error (.refusal (.incompleteBlock lo hi))
    | _, _ => .error (.fault .nothingCited)
  | some b =>
    match ctx.types.get? b with
    | none => .error (.fault (.untypedBlock (ctx.blockText b)))
    | some type =>
      match type.hypotheses with
      | [h] => .ok (.deduction h type.results)
      | hs => .error (.refusal (.severalHypotheses hs))

/-- What a reason means, and the variable context that the cited lines hand on. -/
def interpret (ctx : Context) (reason : Reason) : Except Failure (Argument × VariableContext) :=
  match ctx.cite reason.citations with
  | .error f => .error (.fault f)
  | .ok ids =>
    -- a deduction, too, takes over what the lines of its block have in scope
    let vars := VariableContext.combine (ids.map ctx.variablesOf)
    if reason.rule = deductionName then
      match ctx.deduction reason.citations with
      | .error e => .error e
      | .ok arg => .ok (arg, vars)
    else
      match Rule.ofName? reason.rule with
      | none => .error (.refusal (.unknownRule reason.rule))
      | some rule =>
        match rule.argument? (ids.map ctx.cited) with
        | none => .error (.fault .wrongCitationCount)
        | some arg => .ok (arg, vars)

/-- The variable found for the variable of a quantifier, which must not be a hole, between its body
    and an instance of it. -/
def instantiated (v : Variable) (body inst : Formula) : Except Refusal Variable :=
  if v.isNamed then body.renamed v inst else .error .quantifiedHole

/-- Verify a universal instantiation to the line `id`. -/
def verifyUI (ctx : Context) (id : LineId) (quantified : Cited) : Except Refusal Unit × Context :=
  match quantified.formula with
  | .all v body =>
    match instantiated v body (ctx.record id).line.formula with
    | .error r => (.error r, ctx)
    | .ok w =>
      -- a variable that the formula mentions already was not chosen freely
      if w = v ∨ body.uses w = false then
        let (store, i) := ctx.store.alloc []
        (.ok (), { ctx with store := store }.modifyRecord id fun r =>
          { r with scope := r.scope.put w.name i })
      else (.ok (), ctx)
  | _ => (.error .citedNotUniversal, ctx)

/-- A member of a dependence set or a symbol of a formula.  A bare name is not the variable that
    bears it. -/
inductive Mention where
  | bare (name : String)
  | symbol (v : Variable)
  deriving DecidableEq, Repr

/-- The members of a dependence set that are among the symbols of a formula. -/
def dependents (names : List String) (s : Symbols) : List String :=
  names.filter fun n => Mention.bare n ∈ s.mentioned.map Mention.symbol

/-- No symbol is a bare name. -/
@[simp] theorem dependents_eq_nil (names : List String) (s : Symbols) :
    dependents names s = [] := by
  simp [dependents]

/-- Verify a universal generalization to the line `id`.  The generalized variable has to be in
    scope, and nothing that it depends on may be a symbol of the formula. -/
def verifyUG (ctx : Context) (id : LineId) (inst : Cited) : Except Refusal Unit × Context :=
  match (ctx.record id).line.formula with
  | .all v body =>
    match instantiated v body inst.formula with
    | .error r => (.error r, ctx)
    | .ok w =>
      match (ctx.record id).scope.get? w.name with
      | none => (.error (.notInstantiated v), ctx)
      | some i =>
        match body.symbols with
        | .error r => (.error r, ctx)
        | .ok s =>
          match dependents (ctx.store.get i) s with
          | [] => (.ok (), ctx.modifyRecord id fun r => { r with scope := r.scope.erase w.name })
          | names => (.error (.dependentsInScope v names), ctx)
  | _ => (.error .notUniversal, ctx)

/-- The names that the generalized variable depends on do not hinder. -/
theorem verifyUG_eq (ctx : Context) (id : LineId) (inst : Cited) :
    ctx.verifyUG id inst =
      match (ctx.record id).line.formula with
      | .all v body =>
        match instantiated v body inst.formula with
        | .error r => (.error r, ctx)
        | .ok w =>
          if (ctx.record id).scope.contains w.name then
            match body.symbols with
            | .error r => (.error r, ctx)
            | .ok _ =>
              (.ok (), ctx.modifyRecord id fun r => { r with scope := r.scope.erase w.name })
          else (.error (.notInstantiated v), ctx)
      | _ => (.error .notUniversal, ctx) := by
  simp only [verifyUG, dependents_eq_nil, Table.contains]
  split
  · split
    · rfl
    · split
      · rename_i hscope
        simp [hscope]
      · rename_i hscope
        simp [hscope]
  · rfl

/-- Verify an existential instantiation to the line `id`. -/
def verifyEI (ctx : Context) (id : LineId) (quantified : Cited) : Except Refusal Unit × Context :=
  match quantified.formula with
  | .ex v body =>
    match instantiated v body (ctx.record id).line.formula with
    | .error r => (.error r, ctx)
    | .ok w =>
      -- variables are compared here, while the sets hold their names
      if w ∈ ctx.constants then (.error (.notFresh w), ctx)
      else
        let store := ctx.store.modifyAll (ctx.record id).scope fun s => addName s w.name
        (.ok (), { ctx with store := store })
  | _ => (.error .citedNotExistential, ctx)

/-- Verify an existential generalization to the line `id`. -/
def verifyEG (ctx : Context) (id : LineId) (inst : Cited) : Except Refusal Unit × Context :=
  -- the places are taken over, not copies of the sets, and before anything is refused
  let ctx := ctx.modifyRecord id fun r =>
    { r with scope := r.scope.putAll (ctx.record inst.id).scope }
  match (ctx.record id).line.formula with
  | .ex v body =>
    match instantiated v body inst.formula with
    | .error r => (.error r, ctx)
    | .ok w =>
      -- these are sets of the cited line as well
      let store := ctx.store.modifyAll (ctx.record id).scope fun s => dropName s w.name
      (.ok (), { ctx with store := store })
  | _ => (.error .notExistential, ctx)

/-- Verify an argument for the line `id` by the formulas of the cited lines. -/
def verifyFormulas (ctx : Context) (id : LineId) (arg : Argument) : Except Failure Unit × Context :=
  let f := (ctx.record id).line.formula
  match arg.typecheck ctx.standing f with
  | (.error e, standing) => (.error e, { ctx with standing := standing })
  | (.ok true, standing) => (.ok (), { ctx with standing := standing })
  | (.ok false, standing) =>
    (.error (.refusal (.unproductive (arg.label?.getD "") f)), { ctx with standing := standing })

/-- Verify an argument for the line `id`. -/
def verify (ctx : Context) (id : LineId) (arg : Argument) : Except Failure Unit × Context :=
  match arg with
  | .universalInstantiation q =>
    let (result, ctx) := ctx.verifyUI id q
    (result.mapError .refusal, ctx)
  | .universalGeneralization f =>
    let (result, ctx) := ctx.verifyUG id f
    (result.mapError .refusal, ctx)
  | .existentialInstantiation q =>
    let (result, ctx) := ctx.verifyEI id q
    (result.mapError .refusal, ctx)
  | .existentialGeneralization f =>
    let (result, ctx) := ctx.verifyEG id f
    (result.mapError .refusal, ctx)
  | arg => ctx.verifyFormulas id arg

/-- Examine the line `id`. -/
def examine (ctx : Context) (id : LineId) : Except Failure Unit × Context :=
  match ctx.interpret (ctx.record id).line.reason with
  | .error e => (.error e, ctx)
  | .ok (arg, vars) =>
    -- recorded even if the argument is refused afterwards
    let (store, scope) := ctx.store.allocAll vars
    let ctx := { ctx with store := store }.modifyRecord id fun r =>
      { r with argument := some arg, scope := scope }
    ctx.verify id arg

/-- Examine the line that a number stands for. -/
def examineNumber (ctx : Context) (n : Int) : Except Failure Unit × Context :=
  match ctx.lines.get? n with
  | none => (.error (.fault (.missingLine n)), ctx)
  | some id => ctx.examine id

end Sequitur.Context
