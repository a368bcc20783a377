import Sequitur.Proof.Examination

/-!
# What examining a line does

Examining a line reads the whole context and changes little of it.  `Frame` is what no step of a
check changes: which lines and blocks there are.  `Quiet` adds what verification leaves alone: the
types of blocks and the arguments recorded for lines.

A line that is accepted has an argument, which `interpret` has made of its reason.  Unless it is one
of the four quantifier rules, the formulas of the cited lines yield the formula of the line
(`examine_ok`).
-/

namespace Sequitur

/-- Whether the line is a hypothesis or a premise. -/
def Line.assumes (l : Line) : Bool := l.reason.rule = "hyp" || l.reason.rule = "prem"

/-- Whether the argument is by one of the quantifier rules. -/
def Argument.isQuantifier : Argument → Bool
  | existentialInstantiation _ | existentialGeneralization _ | universalInstantiation _
  | universalGeneralization _ => true
  | _ => false

/-- Renaming the error does not touch a success. -/
@[simp] theorem mapError_eq_ok {ε ε' α : Type} {x : Except ε α} {f : ε → ε'} {a : α} :
    x.mapError f = .ok a ↔ x = .ok a := by
  cases x with
  | error e => constructor <;> intro h <;> cases h
  | ok b => constructor <;> intro h <;> cases h <;> rfl

namespace Context

/-! ## What stays -/

/-- Lines and blocks are the same in both contexts. -/
structure Frame (ctx ctx' : Context) : Prop where
  lines : ctx'.lines = ctx.lines
  registered : ctx'.registered = ctx.registered
  blocks : ctx'.blocks = ctx.blocks
  main : ctx'.main = ctx.main
  records_length : ctx'.records.length = ctx.records.length
  line : ∀ id, (ctx'.record id).line = (ctx.record id).line

/-- Besides, types and arguments are the same. -/
structure Quiet (ctx ctx' : Context) : Prop extends Frame ctx ctx' where
  types : ctx'.types = ctx.types
  argument : ∀ id, (ctx'.record id).argument = (ctx.record id).argument

variable {ctx ctx₁ ctx₂ : Context}

theorem Frame.trans (h : Frame ctx ctx₁) (h' : Frame ctx₁ ctx₂) : Frame ctx ctx₂ where
  lines := h'.lines.trans h.lines
  registered := h'.registered.trans h.registered
  blocks := h'.blocks.trans h.blocks
  main := h'.main.trans h.main
  records_length := h'.records_length.trans h.records_length
  line id := (h'.line id).trans (h.line id)

theorem Quiet.refl (ctx : Context) : Quiet ctx ctx :=
  ⟨⟨rfl, rfl, rfl, rfl, rfl, fun _ => rfl⟩, rfl, fun _ => rfl⟩

theorem Quiet.trans (h : Quiet ctx ctx₁) (h' : Quiet ctx₁ ctx₂) : Quiet ctx ctx₂ :=
  ⟨h.toFrame.trans h'.toFrame, h'.types.trans h.types,
    fun id => (h'.argument id).trans (h.argument id)⟩

/-- The same lines are cited where the lines are the same. -/
theorem Frame.cite (h : Frame ctx ctx₁) (ns : List Int) : ctx₁.cite ns = ctx.cite ns := by
  induction ns with
  | nil => rfl
  | cons n ns ih => rw [Context.cite, Context.cite, h.lines, ih]

theorem Frame.cited (h : Frame ctx ctx₁) : ctx₁.cited = ctx.cited :=
  funext fun id => by rw [Context.cited, Context.cited, h.line]

/-- What is known about a line after the knowledge about `id` was changed. -/
theorem record_modifyRecord (ctx : Context) (id : LineId) (f : Record → Record) (j : LineId) :
    (ctx.modifyRecord id f).record j =
      if j = id ∧ id < ctx.records.length then f (ctx.record j) else ctx.record j := by
  simp only [record, modifyRecord, List.getD_eq_getElem?_getD, List.getElem?_modify]
  by_cases hj : id = j
  · subst hj
    by_cases hlt : id < ctx.records.length
    · simp [hlt]
    · simp [hlt]
  · simp [hj, Ne.symm hj]

/-- Changing what is known about a line leaves lines and blocks alone. -/
theorem frame_modifyRecord (ctx : Context) (id : LineId) {g : Record → Record}
    (hg : ∀ r, (g r).line = r.line) : Frame ctx (ctx.modifyRecord id g) := by
  refine ⟨rfl, rfl, rfl, rfl, by simp [modifyRecord], fun j => ?_⟩
  rw [record_modifyRecord]
  split
  · exact hg _
  · rfl

/-- Changing the variable context of a line disturbs nothing else. -/
theorem quiet_modifyRecord (ctx : Context) (id : LineId) (f : Record → Scope) :
    Quiet ctx (ctx.modifyRecord id fun r => { r with scope := f r }) := by
  refine ⟨frame_modifyRecord ctx id fun _ => rfl, rfl, fun j => ?_⟩
  rw [record_modifyRecord]
  split <;> rfl

/-- A change of the dependence sets disturbs nothing. -/
theorem quiet_store (ctx : Context) (store : Store) : Quiet ctx { ctx with store := store } :=
  ⟨⟨rfl, rfl, rfl, rfl, rfl, fun _ => rfl⟩, rfl, fun _ => rfl⟩

/-- Taking variables to be in use disturbs nothing. -/
theorem quiet_addConstants (ctx : Context) (vs : List Variable) : Quiet ctx (ctx.addConstants vs) :=
  ⟨⟨rfl, rfl, rfl, rfl, rfl, fun _ => rfl⟩, rfl, fun _ => rfl⟩

/-- Finding types leaves lines and blocks alone. -/
theorem frame_types (ctx : Context) (types : Table BlockId BlockType) :
    Frame ctx { ctx with types := types } :=
  ⟨rfl, rfl, rfl, rfl, rfl, fun _ => rfl⟩

/-- A universal instantiation disturbs at most what its line has in scope. -/
private theorem quiet_verifyUI (ctx : Context) (id : LineId) (q : Cited) :
    Quiet ctx (ctx.verifyUI id q).2 := by
  unfold verifyUI
  split
  · split
    · exact .refl ctx
    · split
      · -- a new set, and a new entry for it
        exact (quiet_store ctx _).trans (quiet_modifyRecord _ id _)
      · exact .refl ctx
  · exact .refl ctx

/-- A universal generalization disturbs at most what its line has in scope. -/
private theorem quiet_verifyUG (ctx : Context) (id : LineId) (f : Cited) :
    Quiet ctx (ctx.verifyUG id f).2 := by
  rw [verifyUG_eq]
  split
  · split
    · exact .refl ctx
    · split
      · split
        · exact .refl ctx
        · exact quiet_modifyRecord ctx id _
      · exact .refl ctx
  · exact .refl ctx

/-- An existential instantiation disturbs at most the dependence sets. -/
private theorem quiet_verifyEI (ctx : Context) (id : LineId) (q : Cited) :
    Quiet ctx (ctx.verifyEI id q).2 := by
  unfold verifyEI
  split
  · split
    · exact .refl ctx
    · split
      · exact .refl ctx
      · exact quiet_store ctx _
  · exact .refl ctx

/-- An existential generalization disturbs at most what its line has in scope and the sets. -/
private theorem quiet_verifyEG (ctx : Context) (id : LineId) (f : Cited) :
    Quiet ctx (ctx.verifyEG id f).2 := by
  -- the variable context is taken over before anything is looked at
  have htaken := quiet_modifyRecord ctx id fun r => r.scope.putAll (ctx.record f.id).scope
  unfold verifyEG
  simp only
  split
  · split
    · exact htaken
    · exact htaken.trans (quiet_store _ _)
  · exact htaken

private theorem quiet_verifyFormulas (ctx : Context) (id : LineId) (arg : Argument) :
    Quiet ctx (ctx.verifyFormulas id arg).2 := by
  unfold verifyFormulas
  simp only
  split <;> exact ⟨⟨rfl, rfl, rfl, rfl, rfl, fun _ => rfl⟩, rfl, fun _ => rfl⟩

/-- Verifying an argument leaves lines, blocks, types and arguments alone. -/
theorem quiet_verify (ctx : Context) (id : LineId) (arg : Argument) :
    Quiet ctx (ctx.verify id arg).2 := by
  unfold verify
  split
  · exact quiet_verifyUI ctx id _
  · exact quiet_verifyUG ctx id _
  · exact quiet_verifyEI ctx id _
  · exact quiet_verifyEG ctx id _
  · exact quiet_verifyFormulas ctx id _

/-! ## What reasons mean -/

/-- The lines that are cited are those that the numbers stand for. -/
theorem map_get?_of_cite {ns : List Int} {ids : List LineId} (h : ctx.cite ns = .ok ids) :
    ns.map ctx.lines.get? = ids.map some := by
  induction ns generalizing ids with
  | nil =>
    cases h
    rfl
  | cons n ns ih =>
    simp only [cite] at h
    split at h
    · cases h
    · rename_i id hid
      split at h
      · cases h
      · rename_i rest hrest
        cases h
        rw [List.map_cons, List.map_cons, hid, ih hrest]

/-- A deduction is from a block that has its type, with one hypothesis. -/
theorem deduction_ok {ns : List Int} {arg : Argument} (h : ctx.deduction ns = .ok arg) :
    ∃ b type hyp, ctx.registered.get? (sortNumbers ns) = some b ∧ ctx.types.get? b = some type ∧
      type.hypotheses = [hyp] ∧ arg = .deduction hyp type.results := by
  unfold deduction at h
  split at h
  · -- the numbers are those of a block; whether it has a type is asked next
    split at h <;> cases h
  · rename_i b hb
    split at h
    · cases h
    · rename_i type htype
      split at h
      · rename_i hyp hhyp
        cases h
        exact ⟨b, type, hyp, hb, htype, hhyp, rfl⟩
      · cases h

/-- The two ways in which a reason becomes an argument. -/
theorem interpret_ok {reason : Reason} {arg : Argument} {vars : VariableContext}
    (h : ctx.interpret reason = .ok (arg, vars)) :
    ∃ ids, ctx.cite reason.citations = .ok ids ∧
      (reason.rule = deductionName ∧ ctx.deduction reason.citations = .ok arg ∨
        reason.rule ≠ deductionName ∧ ∃ rule, Rule.ofName? reason.rule = some rule ∧
          rule.argument? (ids.map ctx.cited) = some arg) := by
  unfold interpret at h
  split at h
  · cases h
  · rename_i ids hids
    refine ⟨ids, hids, ?_⟩
    simp only at h
    split at h
    · -- the name of the deduction rule comes before all others
      rename_i hrule
      split at h
      · cases h
      · rename_i arg' harg
        cases h
        exact .inl ⟨hrule, harg⟩
    · rename_i hrule
      split at h
      · cases h
      · rename_i rule hname
        split at h
        · cases h
        · rename_i arg' harg
          cases h
          exact .inr ⟨hrule, rule, hname, harg⟩

end Context

/-- Hypotheses and premises, and nothing else, are assumptions. -/
theorem Rule.ofName?_eq_assumption {name : String} :
    Rule.ofName? name = some .assumption ↔ name = "hyp" ∨ name = "prem" := by
  unfold ofName?
  split <;> simp_all

/-- The argument of a rule tells whether the rule is that for assumptions. -/
theorem Rule.isAssumption_argument? {rule : Rule} {cs : List Cited} {arg : Argument}
    (h : rule.argument? cs = some arg) : arg.isAssumption = true ↔ rule = .assumption := by
  unfold argument? at h
  split at h <;> cases h <;> simp [Argument.isAssumption]

namespace Context

/-- The argument of a line is an assumption when the line is one. -/
theorem isAssumption_of_interpret {ctx : Context} {l : Line} {arg : Argument}
    {vars : VariableContext} (h : ctx.interpret l.reason = .ok (arg, vars)) :
    arg.isAssumption = l.assumes := by
  obtain ⟨ids, -, ⟨hrule, harg⟩ | ⟨-, rule, hname, harg⟩⟩ := interpret_ok h
  · -- a deduction is none, and its name is not that of one
    obtain ⟨b, type, hyp, -, -, -, rfl⟩ := deduction_ok harg
    simp [Argument.isAssumption, Line.assumes, hrule, deductionName]
  · -- the rules for assumptions are told by their two names
    rw [Bool.eq_iff_iff, Rule.isAssumption_argument? harg, Line.assumes, Bool.or_eq_true,
      decide_eq_true_iff, decide_eq_true_iff, ← Rule.ofName?_eq_assumption, hname, Option.some_inj]

/-! ## An accepted line -/

/-- The line `id` was accepted for the argument `arg`, and the context is `ctx'` afterwards. -/
structure Examined (ctx : Context) (id : LineId) (arg : Argument) (ctx' : Context) : Prop
    extends Frame ctx ctx' where
  interpreted : ∃ vars, ctx.interpret (ctx.record id).line.reason = .ok (arg, vars)
  types : ctx'.types = ctx.types
  argument : ∀ j, (ctx'.record j).argument =
    if j = id ∧ id < ctx.records.length then some arg else (ctx.record j).argument
  yields : arg.isQuantifier = false →
    ∃ σ σ', arg.typecheck σ (ctx.record id).line.formula = (.ok true, σ')

/-- Unless it is by a quantifier rule, an argument is verified by the formulas. -/
theorem verify_of_not_isQuantifier {ctx : Context} {id : LineId} {arg : Argument}
    (hq : arg.isQuantifier = false) : ctx.verify id arg = ctx.verifyFormulas id arg := by
  cases arg <;> first | rfl | cases hq

/-- Unless it is by a quantifier rule, an argument that is verified yields the formula. -/
private theorem verify_ok {ctx ctx' : Context} {id : LineId} {arg : Argument}
    (h : ctx.verify id arg = (.ok (), ctx')) (hq : arg.isQuantifier = false) :
    ∃ σ σ', arg.typecheck σ (ctx.record id).line.formula = (.ok true, σ') := by
  rw [verify_of_not_isQuantifier hq, verifyFormulas] at h
  split at h
  · cases h
  · rename_i σ' hcheck
    exact ⟨ctx.standing, σ', hcheck⟩
  · cases h

/-- A line is accepted if its argument yields its formula whatever the standing bindings are. -/
theorem exists_examine {ctx : Context} {id : LineId} {arg : Argument} {vars : VariableContext}
    (hi : ctx.interpret (ctx.record id).line.reason = .ok (arg, vars))
    (hq : arg.isQuantifier = false)
    (hy : ∀ σ, (arg.typecheck σ (ctx.record id).line.formula).1 = .ok true) :
    ∃ ctx', ctx.examine id = (.ok (), ctx') := by
  simp only [examine, hi]
  -- what is recorded before the verification leaves the formula of the line alone
  generalize hctx₁ : modifyRecord _ id _ = ctx₁
  have hline : (ctx₁.record id).line = (ctx.record id).line := by
    rw [← hctx₁, record_modifyRecord]
    split <;> rfl
  have hyields := hy ctx₁.standing
  rw [← hline] at hyields
  rcases hcheck : arg.typecheck ctx₁.standing (ctx₁.record id).line.formula with ⟨answer, σ⟩
  rw [hcheck] at hyields
  cases hyields
  refine ⟨{ ctx₁ with standing := σ }, ?_⟩
  rw [verify_of_not_isQuantifier hq, verifyFormulas]
  simp only [hcheck]

/-- What is known of a line that has passed its examination. -/
theorem examined_of_ok {ctx ctx' : Context} {id : LineId} (h : ctx.examine id = (.ok (), ctx')) :
    ∃ arg, Examined ctx id arg ctx' := by
  unfold examine at h
  split at h
  · cases h
  · rename_i arg vars hinterpret
    refine ⟨arg, ?_⟩
    simp only at h
    -- the context in which the argument is verified
    generalize hctx₁ : modifyRecord _ id _ = ctx₁ at h
    have hrecord : ∀ j, ctx₁.record j =
        if j = id ∧ id < ctx.records.length then
          { ctx.record j with argument := some arg, scope := (ctx.store.allocAll vars).2 }
        else ctx.record j := by
      intro j
      rw [← hctx₁]
      exact record_modifyRecord { ctx with store := (ctx.store.allocAll vars).1 } id _ j
    have hline : ∀ j, (ctx₁.record j).line = (ctx.record j).line := by
      intro j
      rw [hrecord]
      split <;> rfl
    have hframe : Frame ctx ctx₁ := by
      subst hctx₁
      exact ⟨rfl, rfl, rfl, rfl, by simp [modifyRecord], hline⟩
    -- the verification adds nothing to what was recorded before it
    have hquiet : Quiet ctx₁ ctx' := by
      have := quiet_verify ctx₁ id arg
      rwa [h] at this
    refine ⟨hframe.trans hquiet.toFrame, ⟨vars, hinterpret⟩, ?_, fun j => ?_, fun hq => ?_⟩
    · rw [hquiet.types, ← hctx₁]
      rfl
    · rw [hquiet.argument, hrecord]
      split <;> rfl
    · rw [← hline id]
      exact verify_ok h hq

end Context

end Sequitur
