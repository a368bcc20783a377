import Sequitur.Proofs.Completion
import Sequitur.Proofs.Rearrangement
import Sequitur.Proofs.Residue

/-!
# Only the order of the numbers matters

Two contexts that are made from the same blocks, in other orders and with the numbers renamed, are
checked in step.  When a line comes up in the one, its twin comes up in the other (`Twins`): the
dependence sets are in the same places, the same variables are in use, and twins have the same in
scope.  So each examination has the same outcome.  What differs is told only: numbers in refusals,
and the order of formulas in types.

## Key results

- `Argument.Alike.verdict`: arguments from twins get the same verdict
- `Twins.examine`: a line and its twin are examined with the same outcome
- `Twins.checkLines`: from twin moments the two runs go on in step
- `check_rearranged`: what the two checks have in common
-/

namespace Sequitur

/-! ## Outcomes -/

/-- Both computations fail, with errors that `E` relates, or both succeed, with results that `R`
    relates. -/
inductive SameOutcome {ε ε' α α' : Type} (E : ε → ε' → Prop) (R : α → α' → Prop) :
    Except ε α → Except ε' α' → Prop
  | error {e e'} (errors : E e e') : SameOutcome E R (.error e) (.error e')
  | ok {a a'} (results : R a a') : SameOutcome E R (.ok a) (.ok a')

/-- The two ways in which outcomes are the same. -/
private theorem SameOutcome.exists_eq {ε ε' α α' : Type} {E : ε → ε' → Prop} {R : α → α' → Prop}
    {x : Except ε α} {x' : Except ε' α'} (h : SameOutcome E R x x') :
    (∃ e e', x = .error e ∧ x' = .error e' ∧ E e e') ∨
      ∃ a a', x = .ok a ∧ x' = .ok a' ∧ R a a' := by
  cases h with
  | error herrors => exact .inl ⟨_, _, rfl, rfl, herrors⟩
  | ok hresults => exact .inr ⟨_, _, rfl, rfl, hresults⟩

/-- The two ways in which optional values are related. -/
private theorem exists_eq_of_rel {α α' : Type} {R : α → α' → Prop} {x : Option α} {x' : Option α'}
    (h : Option.Rel R x x') :
    x = none ∧ x' = none ∨ ∃ a a', x = some a ∧ x' = some a' ∧ R a a' := by
  cases h with
  | none => exact .inl ⟨rfl, rfl⟩
  | some hrel => exact .inr ⟨_, _, rfl, rfl, hrel⟩

/-- The faults are of the same kind, with the numbers renamed by `f`. -/
inductive Fault.Alike (f : Int → Int) : Fault → Fault → Prop
  | missingLine (n : Int) : Alike f (.missingLine n) (.missingLine (f n))
  | untypedBlock (text text' : String) : Alike f (.untypedBlock text) (.untypedBlock text')
  | same (e : Fault) : Alike f e e

/-- The failures are of the same kind.  What a refusal says does not count. -/
inductive Failure.Alike (f : Int → Int) : Failure → Failure → Prop
  | refusal (r r' : Refusal) : Alike f (.refusal r) (.refusal r')
  | fault {e e' : Fault} (faults : e.Alike f e') : Alike f (.fault e) (.fault e')

theorem Failure.Alike.refl (f : Int → Int) (e : Failure) : e.Alike f e := by
  cases e with
  | refusal r => exact .refusal r r
  | fault e => exact .fault (.same e)

theorem SameOutcome.refl {α : Type} (f : Int → Int) (x : Except Failure α) :
    SameOutcome (Failure.Alike f) Eq x x := by
  cases x with
  | error e => exact .error (.refl f e)
  | ok a => exact .ok rfl

/-! ## Arguments -/

/-- The twin of a cited line. -/
def Cited.relabel (f : Int → Int) (τ : LineId → LineId) (c : Cited) : Cited :=
  ⟨τ c.id, f c.number, c.formula⟩

/-- The argument from the twins of the cited lines. -/
def Argument.relabel (f : Int → Int) (τ : LineId → LineId) : Argument → Argument
  | modusPonens a b => modusPonens (a.relabel f τ) (b.relabel f τ)
  | modusTollens a b => modusTollens (a.relabel f τ) (b.relabel f τ)
  | simplification a => simplification (a.relabel f τ)
  | addition a => addition (a.relabel f τ)
  | hypotheticalSyllogism a b => hypotheticalSyllogism (a.relabel f τ) (b.relabel f τ)
  | disjunctiveSyllogism a b => disjunctiveSyllogism (a.relabel f τ) (b.relabel f τ)
  | disjunctiveElimination a b c =>
    disjunctiveElimination (a.relabel f τ) (b.relabel f τ) (c.relabel f τ)
  | conjunction a b => conjunction (a.relabel f τ) (b.relabel f τ)
  | disjunction a b => disjunction (a.relabel f τ) (b.relabel f τ)
  | assumption => assumption
  | deduction h rs => deduction h rs
  | replacement law a => replacement law (a.relabel f τ)
  | existentialInstantiation a => existentialInstantiation (a.relabel f τ)
  | existentialGeneralization a => existentialGeneralization (a.relabel f τ)
  | universalInstantiation a => universalInstantiation (a.relabel f τ)
  | universalGeneralization a => universalGeneralization (a.relabel f τ)

/-- The arguments are from twins, or deductions from blocks with the same results. -/
inductive Argument.Alike (f : Int → Int) (τ : LineId → LineId) : Argument → Argument → Prop
  | relabel (arg : Argument) : Alike f τ arg (arg.relabel f τ)
  | deduction {rs rs' : List Formula} (h : Formula) (results : rs.Perm rs') :
      Alike f τ (.deduction h rs) (.deduction h rs')

variable {f : Int → Int} {τ : LineId → LineId}

/-- A rule is applied to twins as to the lines. -/
private theorem Rule.argument?_relabel (rule : Rule) (cs : List Cited) :
    rule.argument? (cs.map (Cited.relabel f τ)) =
      (rule.argument? cs).map (Argument.relabel f τ) := by
  rcases cs with _ | ⟨a, _ | ⟨b, _ | ⟨c, _ | ⟨d, cs⟩⟩⟩⟩ <;> cases rule <;> rfl

namespace Argument

/-- Only the numbers in refusals differ between twins. -/
private theorem typecheck_relabel (arg : Argument) (standing : Bindings) (expected : Formula) :
    SameOutcome (Failure.Alike f) Eq (arg.typecheck standing expected).1
      ((arg.relabel f τ).typecheck standing expected).1 := by
  cases arg with
  | modusTollens a b =>
    -- the refusal names the number of a cited line
    simp only [typecheck, relabel, Cited.relabel, checkTollens]
    cases b.formula.denied with
    | error r => exact .error (.refusal _ _)
    | ok g => exact .refl f _
  | disjunctiveSyllogism a b =>
    simp only [typecheck, relabel, Cited.relabel, checkSyllogism]
    cases a.formula with
    | disj p q => exact .refl f _
    | _ => exact .error (.refusal _ _)
  | _ => exact .refl f _

/-- Arguments from twins are by the same kind of rule. -/
theorem Alike.isQuantifier {arg arg' : Argument} (h : Alike f τ arg arg') :
    arg'.isQuantifier = arg.isQuantifier := by
  cases h with
  | relabel arg => cases arg <;> rfl
  | deduction _ _ => rfl

/-- Arguments from twins get the same verdict. -/
theorem Alike.verdict {arg arg' : Argument} (h : Alike f τ arg arg') (expected : Formula)
    (used : List Variable) (names : List String) (standing : Bindings) :
    SameOutcome (Failure.Alike f) Eq (arg.verdict expected used names standing)
      (arg'.verdict expected used names standing) := by
  cases h with
  | relabel arg =>
    cases hq : arg.isQuantifier with
    | false =>
      have hq' : (arg.relabel f τ).isQuantifier = false := (Alike.relabel arg).isQuantifier.trans hq
      rw [verdict_of_not_isQuantifier hq, verdict_of_not_isQuantifier hq']
      rcases (arg.typecheck_relabel standing expected).exists_eq with
        ⟨e, e', herror, herror', herrors⟩ | ⟨yields, _, hok, hok', rfl⟩
      · rw [herror, herror']
        exact .error herrors
      · rw [hok, hok']
        cases yields with
        | true => exact .ok rfl
        | false => exact .error (.refusal _ _)
    | true =>
      cases arg with
      | existentialInstantiation q => exact .refl f _
      | existentialGeneralization q => exact .refl f _
      | universalInstantiation q => exact .refl f _
      | universalGeneralization q => exact .refl f _
      | _ => cases hq
  | @deduction rs rs' hyp hresults =>
    -- only which results there are counts, not their order
    have hsame : (Argument.deduction hyp rs').verdict expected used names standing =
        (Argument.deduction hyp rs).verdict expected used names standing := by
      simp only [Argument.verdict, typecheck, checkDeduction, hresults.mem_iff]
      rfl
    rw [hsame]
    exact .refl f _

end Argument

namespace Context

variable {bs bs' : List (List Line)} {base base' ctx ctx' : Context} {n : Int} {id : LineId}

/-! ## Twin contexts -/

/-- Two contexts with the lines and blocks of `base` and of `base'`, in which as much is known about
    a line as about its twin, and about a block as about its counterpart. -/
structure Twins (f : Int → Int) (τ : LineId → LineId) (bs bs' : List (List Line))
    (base base' ctx ctx' : Context) : Prop where
  frame : Frame base ctx
  frame' : Frame base' ctx'
  store : ctx'.store = ctx.store
  constants : ctx'.constants = ctx.constants
  standing : ctx'.standing = ctx.standing
  scope : ∀ {n j}, base.lines.get? n = some j → (ctx'.record (τ j)).scope = (ctx.record j).scope
  types : ∀ {b b'}, Paired f bs bs' b b' →
    Option.Rel BlockType.Same (ctx.types.get? b) (ctx'.types.get? b')

/-- Before anything is checked as much is known in both contexts. -/
private theorem Mirror.twins (hm : Mirror f τ bs bs' base base') :
    Twins f τ bs bs' base base' base base' where
  frame := (Quiet.refl base).toFrame
  frame' := (Quiet.refl base').toFrame
  store := hm.store
  constants := by rw [hm.unchecked.constants_eq, hm.unchecked'.constants_eq]
  standing := hm.standing
  scope _ := by rw [hm.unchecked.scope_eq, hm.unchecked'.scope_eq]
  types _ := by rw [hm.unchecked.untyped, hm.unchecked'.untyped]; exact .none

/-- The twin of a line that a number stands for is what the renamed number stands for. -/
private theorem Mirror.get?_number (hm : Mirror f τ bs bs' base base')
    (hid : base.lines.get? n = some id) : base'.lines.get? (f n) = some (τ id) := by
  rw [hm.get? (hm.occurs hid n List.mem_cons_self), hid, Option.map_some]

/-- Types with the same hypotheses and results allow the same deduction. -/
private theorem deduction_of_same {t t' : BlockType} (h : t.Same t') :
    SameOutcome (Failure.Alike f) (Argument.Alike f τ)
      (match t.hypotheses with
        | [h] => .ok (.deduction h t.results)
        | hs => .error (.refusal (.severalHypotheses hs)))
      (match t'.hypotheses with
        | [h] => .ok (.deduction h t'.results)
        | hs => .error (.refusal (.severalHypotheses hs))) := by
  obtain ⟨hhypotheses, hresults⟩ := h
  -- a deduction needs exactly one hypothesis
  rcases hh : t.hypotheses with _ | ⟨p, _ | ⟨q, ps⟩⟩
  · rw [hh, List.nil_perm] at hhypotheses
    rw [hhypotheses]
    exact .error (.refusal _ _)
  · rw [hh, List.singleton_perm] at hhypotheses
    rw [← hhypotheses]
    exact .ok (.deduction p hresults)
  · rw [hh] at hhypotheses
    have hlength := hhypotheses.length_eq
    rcases hh' : t'.hypotheses with _ | ⟨p', _ | ⟨q', ps'⟩⟩
    · simp [hh'] at hlength
    · simp [hh'] at hlength
    · exact .error (.refusal _ _)

/-- What an existential generalization leaves behind, whether it passes or not. -/
private theorem snd_verifyEG (ctx : Context) (id : LineId) (q : Cited) :
    (ctx.verifyEG id q).2 =
      match (ctx.record id).line.formula with
      | .ex v body =>
        match instantiated v body q.formula with
        | .error _ => ctx.takeOver id q.id
        | .ok w => (ctx.takeOver id q.id).changeSets id fun s => dropName s w.name
      | _ => ctx.takeOver id q.id := by
  have hline : ((ctx.takeOver id q.id).record id).line = (ctx.record id).line :=
    (quiet_modifyRecord ctx id _).line id
  unfold takeOver at hline
  simp only [verifyEG, hline]
  cases (ctx.record id).line.formula with
  | ex v body =>
    simp only
    cases instantiated v body q.formula <;> rfl
  | _ => rfl

section

variable (hm : Mirror f τ bs bs' base base') (h : Twins f τ bs bs' base base' ctx ctx')

include h

/-! ### What changes both -/

/-- Both get the same store. -/
private theorem Twins.setStore (store : Store) :
    Twins f τ bs bs' base base' { ctx with store := store } { ctx' with store := store } :=
  ⟨h.frame.trans (quiet_store ctx store).toFrame, h.frame'.trans (quiet_store ctx' store).toFrame,
    rfl, h.constants, h.standing, h.scope, h.types⟩

/-- The same variables come into use in both. -/
theorem Twins.addConstants (vs : List Variable) :
    Twins f τ bs bs' base base' (ctx.addConstants vs) (ctx'.addConstants vs) where
  frame := h.frame.trans (quiet_addConstants ctx vs).toFrame
  frame' := h.frame'.trans (quiet_addConstants ctx' vs).toFrame
  store := h.store
  constants := by simp only [Context.addConstants, h.constants]
  standing := h.standing
  scope := h.scope
  types := h.types

include hm

/-- Changing what is known about a line and its twin, in the same way as far as the scope is
    concerned. -/
theorem Twins.modifyRecord (hid : base.lines.get? n = some id) {g g' : Record → Record}
    (hg : ∀ r, (g r).line = r.line) (hg' : ∀ r, (g' r).line = r.line)
    (hscope : (g' (ctx'.record (τ id))).scope = (g (ctx.record id)).scope) :
    Twins f τ bs bs' base base' (ctx.modifyRecord id g) (ctx'.modifyRecord (τ id) g') where
  frame := h.frame.trans (frame_modifyRecord ctx id hg)
  frame' := h.frame'.trans (frame_modifyRecord ctx' (τ id) hg')
  store := h.store
  constants := h.constants
  standing := h.standing
  scope {m j} hj := by
    have hlt : id < ctx.records.length :=
      h.frame.records_length ▸ hm.unchecked.line_lt (Table.mem_of_get? hid)
    have hlt' : τ id < ctx'.records.length :=
      h.frame'.records_length ▸ hm.unchecked'.line_lt (Table.mem_of_get? (hm.get?_number hid))
    rw [record_modifyRecord, record_modifyRecord]
    -- the twin of another line is another line
    by_cases heq : j = id
    · subst heq
      rwa [if_pos ⟨rfl, hlt'⟩, if_pos ⟨rfl, hlt⟩]
    · rw [if_neg fun hτ => heq (hm.inj hj hid hτ.1), if_neg fun hj => heq hj.1]
      exact h.scope hj
  types := h.types

/-- A name is brought into the scope of a line and of its twin. -/
theorem Twins.bring (hid : base.lines.get? n = some id) (c : String) :
    Twins f τ bs bs' base base' (ctx.bring id c) (ctx'.bring (τ id) c) := by
  unfold Context.bring
  -- the new set gets the same place in both stores
  rw [h.store]
  refine (h.setStore _).modifyRecord hm hid (fun _ => rfl) (fun _ => rfl) ?_
  exact congrArg (fun scope : Scope => scope.put c _) (h.scope hid)

/-- A name is taken out of the scope of a line and of its twin. -/
theorem Twins.release (hid : base.lines.get? n = some id) (c : String) :
    Twins f τ bs bs' base base' (ctx.release id c) (ctx'.release (τ id) c) := by
  refine h.modifyRecord hm hid (fun _ => rfl) (fun _ => rfl) ?_
  exact congrArg (fun scope : Scope => scope.erase c) (h.scope hid)

/-- A line takes over the sets of another, and its twin those of the twin. -/
theorem Twins.takeOver {m : Int} {j : LineId} (hid : base.lines.get? n = some id)
    (hj : base.lines.get? m = some j) :
    Twins f τ bs bs' base base' (ctx.takeOver id j) (ctx'.takeOver (τ id) (τ j)) := by
  refine h.modifyRecord hm hid (fun _ => rfl) (fun _ => rfl) ?_
  simp only [h.scope hid, h.scope hj]

omit hm in
/-- The sets of a line and of its twin are changed in the same way. -/
theorem Twins.changeSets (hid : base.lines.get? n = some id) (g : List String → List String) :
    Twins f τ bs bs' base base' (ctx.changeSets id g) (ctx'.changeSets (τ id) g) := by
  unfold Context.changeSets
  rw [h.store, h.scope hid]
  exact h.setStore _

/-- What a reason means is recorded for a line and for its twin. -/
theorem Twins.recorded (hid : base.lines.get? n = some id) (arg arg' : Argument)
    (vars : VariableContext) :
    Twins f τ bs bs' base base' (ctx.recorded id arg vars) (ctx'.recorded (τ id) arg' vars) := by
  unfold Context.recorded
  rw [h.store]
  exact (h.setStore _).modifyRecord hm hid (fun _ => rfl) (fun _ => rfl) rfl

/-! ### What reasons mean -/

omit hm in
/-- A line and its twin have the same in scope. -/
theorem Twins.variablesOf (hid : base.lines.get? n = some id) :
    ctx'.variablesOf (τ id) = ctx.variablesOf id := by
  rw [Context.variablesOf, Context.variablesOf, h.store, h.scope hid]

/-- The twin is the line with its numbers renamed. -/
theorem Twins.line (hid : base.lines.get? n = some id) :
    (ctx'.record (τ id)).line = (ctx.record id).line.relabel f := by
  rw [h.frame'.line, hm.line hid, h.frame.line]

/-- As a cited line, too. -/
theorem Twins.cited (hid : base.lines.get? n = some id) :
    ctx'.cited (τ id) = (ctx.cited id).relabel f τ := by
  simp only [Context.cited, h.line hm hid]
  rfl

/-- Renamed numbers are cited as the numbers are. -/
theorem Twins.cite {ns : List Int} (hns : ∀ m ∈ ns, Occurs bs m) :
    SameOutcome (Fault.Alike f)
      (fun ids ids' => ids' = ids.map τ ∧ ∀ j ∈ ids, ∃ m, base.lines.get? m = some j)
      (ctx.cite ns) (ctx'.cite (ns.map f)) := by
  induction ns with
  | nil => exact .ok ⟨rfl, by simp⟩
  | cons m ns ih =>
    rw [List.forall_mem_cons] at hns
    simp only [List.map_cons, Context.cite, h.frame.lines, h.frame'.lines, hm.get? hns.1]
    -- a number stands for a line if the renamed one stands for a line
    cases hj : base.lines.get? m with
    | none => exact .error (.missingLine m)
    | some j =>
      simp only [Option.map_some]
      rcases (ih hns.2).exists_eq with
        ⟨e, e', he, he', herrors⟩ | ⟨ids, _, hids, hids', rfl, hlines⟩
      · simp only [he, he']
        exact .error herrors
      · simp only [hids, hids']
        exact .ok ⟨rfl, List.forall_mem_cons.mpr ⟨⟨m, hj⟩, hlines⟩⟩

/-- A deduction from a block and one from its counterpart are alike. -/
theorem Twins.deduction {ns : List Int} (hns : ∀ m ∈ ns, Occurs bs m) :
    SameOutcome (Failure.Alike f) (Argument.Alike f τ) (ctx.deduction ns)
      (ctx'.deduction (ns.map f)) := by
  unfold Context.deduction
  rw [h.frame.registered, h.frame'.registered]
  rcases exists_eq_of_rel (hm.registered hns) with ⟨hb, hb'⟩ | ⟨b, b', hb, hb', hpaired⟩
  · -- neither block is registered; only whether anything is cited matters then
    rw [hb, hb']
    cases ns with
    | nil => exact .error (.fault (.same .nothingCited))
    | cons n ns => exact .error (.refusal _ _)
  · simp only [hb, hb']
    rcases exists_eq_of_rel (h.types hpaired) with ⟨ht, ht'⟩ | ⟨t, t', ht, ht', hsame⟩
    · simp only [ht, ht']
      exact .error (.fault (.untypedBlock _ _))
    · simp only [ht, ht']
      exact deduction_of_same hsame

/-- What a reason means for a line and for its twin. -/
theorem Twins.interpret {reason : Reason} (hns : ∀ m ∈ reason.citations, Occurs bs m) :
    SameOutcome (Failure.Alike f) (fun r r' => r.1.Alike f τ r'.1 ∧ r.2 = r'.2)
      (ctx.interpret reason)
      (ctx'.interpret { reason with citations := reason.citations.map f }) := by
  unfold Context.interpret
  rcases (h.cite hm hns).exists_eq with
    ⟨e, e', he, he', herrors⟩ | ⟨ids, _, hids, hids', rfl, hlines⟩
  · simp only [he, he']
    exact .error (.fault herrors)
  -- the cited lines are twins, so they hand on the same
  have hvars : (ids.map τ).map ctx'.variablesOf = ids.map ctx.variablesOf := by
    rw [List.map_map]
    refine List.map_congr_left fun j hj => ?_
    obtain ⟨m, hm⟩ := hlines j hj
    exact h.variablesOf hm
  have hcited : (ids.map τ).map ctx'.cited = (ids.map ctx.cited).map (Cited.relabel f τ) := by
    rw [List.map_map, List.map_map]
    refine List.map_congr_left fun j hj => ?_
    obtain ⟨m, hget⟩ := hlines j hj
    exact h.cited hm hget
  simp only [hids, hids', hvars, hcited]
  split
  · rcases (h.deduction hm hns).exists_eq with ⟨e, e', he, he', herrors⟩ | ⟨a, a', ha, ha', halike⟩
    · simp only [he, he']
      exact .error herrors
    · simp only [ha, ha']
      exact .ok ⟨halike, rfl⟩
  · -- the name of the rule is the same
    cases Rule.ofName? reason.rule with
    | none => exact .error (.refusal _ _)
    | some rule =>
      simp only [Rule.argument?_relabel]
      cases rule.argument? (ids.map ctx.cited) with
      | none => exact .error (.fault (.same .wrongCitationCount))
      | some arg => exact .ok ⟨.relabel arg, rfl⟩

/-! ### Examination -/

/-- A line and its twin have the same formula. -/
theorem Twins.formula (hid : base.lines.get? n = some id) :
    (ctx'.record (τ id)).line.formula = (ctx.record id).line.formula := by
  rw [h.line hm hid]
  rfl

/-- A universal instantiation leaves twin contexts behind. -/
private theorem Twins.snd_verifyUI (hid : base.lines.get? n = some id) (q : Cited) :
    Twins f τ bs bs' base base' (ctx.verifyUI id q).2 (ctx'.verifyUI (τ id) (q.relabel f τ)).2 := by
  simp only [verifyUI, Cited.relabel, h.formula hm hid]
  split
  · split
    · exact h
    · split
      · exact h.bring hm hid _
      · exact h
  · exact h

/-- So does a universal generalization. -/
private theorem Twins.snd_verifyUG (hid : base.lines.get? n = some id) (q : Cited) :
    Twins f τ bs bs' base base' (ctx.verifyUG id q).2 (ctx'.verifyUG (τ id) (q.relabel f τ)).2 := by
  simp only [verifyUG_eq, Cited.relabel, h.formula hm hid, h.scope hid]
  split
  · split
    · exact h
    · split
      · split
        · exact h
        · exact h.release hm hid _
      · exact h
  · exact h

/-- So does an existential instantiation. -/
private theorem Twins.snd_verifyEI (hid : base.lines.get? n = some id) (q : Cited) :
    Twins f τ bs bs' base base' (ctx.verifyEI id q).2 (ctx'.verifyEI (τ id) (q.relabel f τ)).2 := by
  have hused : ∀ w, w ∈ ctx'.constants ↔ w ∈ ctx.constants := fun _ => by rw [h.constants]
  simp only [verifyEI, Cited.relabel, h.formula hm hid, hused]
  split
  · split
    · exact h
    · split
      · exact h
      · exact h.changeSets hid _
  · exact h

/-- The dependence sets that are taken over are those of a line and of its twin. -/
private theorem Twins.snd_verifyEG {m : Int} {q : Cited} (hid : base.lines.get? n = some id)
    (hq : base.lines.get? m = some q.id) :
    Twins f τ bs bs' base base' (ctx.verifyEG id q).2 (ctx'.verifyEG (τ id) (q.relabel f τ)).2 := by
  have htaken := h.takeOver hm hid hq
  simp only [Context.snd_verifyEG, Cited.relabel, h.formula hm hid]
  split
  · split
    · exact htaken
    · exact htaken.changeSets hid _
  · exact htaken

/-- What a verification leaves behind is the same for a line and for its twin. -/
private theorem Twins.snd_verify {arg arg' : Argument} (hid : base.lines.get? n = some id)
    (halike : arg.Alike f τ arg')
    (hcited : ∀ q, arg = .existentialGeneralization q → ∃ m, base.lines.get? m = some q.id) :
    Twins f τ bs bs' base base' (ctx.verify id arg).2 (ctx'.verify (τ id) arg').2 := by
  cases hq : arg.isQuantifier with
  | false =>
    rwa [snd_verify_of_not_isQuantifier hq, snd_verify_of_not_isQuantifier]
    rw [halike.isQuantifier, hq]
  | true =>
    cases halike with
    | deduction _ _ => cases hq
    | relabel arg =>
      cases arg with
      | universalInstantiation q => exact h.snd_verifyUI hm hid q
      | universalGeneralization q => exact h.snd_verifyUG hm hid q
      | existentialInstantiation q => exact h.snd_verifyEI hm hid q
      | existentialGeneralization q =>
        -- the only rule that looks at the scope of another line
        obtain ⟨m, hcited⟩ := hcited q rfl
        exact h.snd_verifyEG hm hid hcited
      | _ => cases hq

/-- A line and its twin are examined with the same outcome. -/
theorem Twins.examine (hid : base.lines.get? n = some id) :
    SameOutcome (Failure.Alike f) Eq (ctx.examine id).1 (ctx'.examine (τ id)).1 ∧
      Twins f τ bs bs' base base' (ctx.examine id).2 (ctx'.examine (τ id)).2 := by
  have hns : ∀ m ∈ (ctx.record id).line.reason.citations, Occurs bs m := by
    intro m hm'
    rw [h.frame.line] at hm'
    exact hm.occurs hid m (List.mem_cons_of_mem _ hm')
  have hinterpret := h.interpret hm hns
  have hreason : (ctx'.record (τ id)).line.reason = { (ctx.record id).line.reason with
      citations := (ctx.record id).line.reason.citations.map f } := by
    rw [h.line hm hid]
    rfl
  rw [← hreason] at hinterpret
  rcases hinterpret.exists_eq with ⟨e, e', he, he', herrors⟩ |
    ⟨⟨arg, vars⟩, ⟨arg', _⟩, hok, hok', halike, rfl⟩
  · simp only [Context.examine, he, he']
    exact ⟨.error herrors, h⟩
  · have hrecorded := h.recorded hm hid arg arg' vars
    rw [examine_of_interpret hok, examine_of_interpret hok', fst_verify, fst_verify]
    refine ⟨?_, hrecorded.snd_verify hm hid halike ?_⟩
    · rw [hrecorded.line hm hid, hrecorded.constants, hrecorded.scope hid, hrecorded.standing]
      exact halike.verdict _ _ _ _
    · -- what takes over the sets of a line cites it by its number
      rintro q rfl
      obtain ⟨m, j, -, hj, rfl, -⟩ := (interpret_quantifier_iff rfl).mp hok
      exact ⟨m, h.frame.lines ▸ hj⟩

omit hm in
/-- The symbols of a formula have the same effect in both. -/
theorem Twins.useSymbols (g : Formula) :
    (ctx'.useSymbols g).1 = (ctx.useSymbols g).1 ∧
      Twins f τ bs bs' base base' (ctx.useSymbols g).2 (ctx'.useSymbols g).2 := by
  unfold Context.useSymbols
  cases g.symbols with
  | error r => exact ⟨rfl, h⟩
  | ok s => exact ⟨rfl, h.addConstants s.unbound⟩

/-- The same variables of premises are taken to be in use. -/
theorem Twins.usePremises {ids : List LineId} (hids : ∀ j ∈ ids, ∃ m, base.lines.get? m = some j) :
    (ctx'.usePremises (ids.map τ)).1 = (ctx.usePremises ids).1 ∧
      Twins f τ bs bs' base base' (ctx.usePremises ids).2 (ctx'.usePremises (ids.map τ)).2 := by
  induction ids generalizing ctx ctx' with
  | nil => exact ⟨rfl, h⟩
  | cons j ids ih =>
    rw [List.forall_mem_cons] at hids
    obtain ⟨⟨m, hj⟩, hids⟩ := hids
    -- being a premise is a matter of the rule, which is not renamed
    have hpremise : (ctx'.record (τ j)).line.isPremise = (ctx.record j).line.isPremise := by
      rw [h.line hm hj]
      rfl
    simp only [List.map_cons, Context.usePremises, hpremise, h.formula hm hj]
    obtain ⟨hsame, htwins⟩ := h.useSymbols (ctx.record j).line.formula
    split
    · revert hsame htwins
      rcases ctx.useSymbols (ctx.record j).line.formula with ⟨r | _, ctx₁⟩ <;>
        rcases ctx'.useSymbols (ctx.record j).line.formula with ⟨r' | _, ctx₁'⟩ <;>
        rintro ⟨⟩ htwins
      · exact ⟨rfl, htwins⟩
      · exact ih htwins hids
    · exact ih h hids

end

/-! ## Runs -/

/-- Two runs end alike, accept twins and leave twin contexts. -/
structure SameRun (f : Int → Int) (τ : LineId → LineId) (bs bs' : List (List Line))
    (base base' : Context) (run run' : Run) : Prop where
  result : SameOutcome (Fault.Alike f) Eq run.result run'.result
  acceptances : List.Forall₂
    (fun e e' => (∃ n, base.lines.get? n = some e.1) ∧ e' = (τ e.1, e.2.relabel f))
    run.acceptances run'.acceptances
  context : Twins f τ bs bs' base base' run.context run'.context

/-- Announcing a line adds nothing to what a run that fails has accepted. -/
private theorem Twins.fail_after (h : Twins f τ bs bs' base base' ctx ctx') {e e' : Failure}
    (he : e.Alike f e') (id id' : LineId) (l l' : Line) :
    SameRun f τ bs bs' base base' ((ctx.fail e).after [.examining id l])
      ((ctx'.fail e').after [.examining id' l']) := by
  cases he with
  | refusal r r' => exact ⟨.ok rfl, .nil, h⟩
  | fault hfaults => exact ⟨.error hfaults, .nil, h⟩

/-- Runs that go on alike after a line and its twin were accepted. -/
private theorem SameRun.accept {run run' : Run} (h : SameRun f τ bs bs' base base' run run')
    (hid : base.lines.get? n = some id) (l : Line) :
    SameRun f τ bs bs' base base' (run.after [.examining id l, .accepted])
      (run'.after [.examining (τ id) (l.relabel f), .accepted]) :=
  ⟨h.result, .cons ⟨⟨n, hid⟩, rfl⟩ h.acceptances, h.context⟩

section

variable {accepted : List Int} {pending pending' : List (List Int × BlockId)}
  {rest : List (Int × LineId)} (hm : Mirror f τ bs bs' base base')

include hm

/-- A number that has been accepted occurs in the blocks. -/
private theorem Mirror.occurs_of_mem_accepted (hr : Reaches base accepted pending rest ctx)
    (hn : n ∈ accepted) : Occurs bs n := by
  obtain ⟨done, hsorted, rfl⟩ := hr.exists_sortedLines_eq
  obtain ⟨⟨_, j⟩, hdone, rfl⟩ := List.mem_map.mp (List.mem_reverse.mp hn)
  have hget := hm.unchecked.get?_of_mem_sortedLines _ (hsorted ▸ List.mem_append_left rest hdone)
  exact hm.occurs hget _ List.mem_cons_self

/-- When the numbers that have been accepted are the same, a block has its type when its counterpart
    has. -/
private theorem Mirror.types_of_reaches {rest' : List (Int × LineId)}
    (hr : Reaches base accepted pending rest ctx)
    (hr' : Reaches base' (accepted.map f) pending' rest' ctx') {b b' : BlockId}
    (hpaired : Paired f bs bs' b b') :
    Option.Rel BlockType.Same (ctx.types.get? b) (ctx'.types.get? b') := by
  obtain ⟨hsame, key, key', hkey, hkey', hne, hperm, hoccurs⟩ := hm.paired hpaired
  have hne' : key' ≠ [] := by
    rintro rfl
    exact hne (List.map_eq_nil_iff.mp (List.nil_perm.mp hperm))
  -- the block and its counterpart are complete at the same time, for renaming tells numbers apart
  have hall : (∀ n ∈ key', n ∈ accepted.map f) ↔ ∀ n ∈ key, n ∈ accepted := by
    constructor
    · intro hall n hn
      obtain ⟨m, haccepted, heq⟩ :=
        List.mem_map.mp (hall _ (hperm.mem_iff.mpr (List.mem_map_of_mem hn)))
      exact hm.injOn (hm.occurs_of_mem_accepted hr haccepted) (hoccurs n hn) heq ▸ haccepted
    · intro hall n' hn'
      obtain ⟨n, hn, rfl⟩ := List.mem_map.mp (hperm.mem_iff.mp hn')
      exact List.mem_map_of_mem (hall n hn)
  rw [hm.unchecked.types_eq hr hkey hne, hm.unchecked'.types_eq hr' hkey' hne']
  simp only [hall]
  split
  · exact .some hsame
  · exact .none

/-- Accepting a line and its twin keeps the contexts twins. -/
theorem Twins.advance {pending₁ pending₁' : List (List Int × BlockId)} {ctx₁ ctx₁' : Context}
    {rest' : List (Int × LineId)} (h : Twins f τ bs bs' base base' ctx ctx')
    (hr : Reaches base accepted pending ((n, id) :: rest) ctx)
    (hr' : Reaches base' (accepted.map f) pending' ((f n, τ id) :: rest') ctx')
    (hadvances : ctx.Advances accepted pending n id pending₁ ctx₁)
    (hadvances' : ctx'.Advances (accepted.map f) pending' (f n) (τ id) pending₁' ctx₁') :
    Twins f τ bs bs' base base' ctx₁ ctx₁' := by
  have hid := hm.unchecked.get?_of_reaches hr
  have hnext : Reaches base (n :: accepted) pending₁ rest ctx₁ := hr.advance hadvances
  have hnext' : Reaches base' ((n :: accepted).map f) pending₁' rest' ctx₁' :=
    hr'.advance hadvances'
  obtain ⟨ctx₂, ctx₃, hexamine, hsymbols, hcompile⟩ := hadvances
  obtain ⟨ctx₂', ctx₃', hexamine', hsymbols', hcompile'⟩ := hadvances'
  obtain ⟨s, types, hs, rfl⟩ := exists_eq_of_useSymbols_compileReady hsymbols hcompile
  obtain ⟨s', types', hs', rfl⟩ := exists_eq_of_useSymbols_compileReady hsymbols' hcompile'
  have hexamined := (h.examine hm hid).2
  rw [hexamine, hexamine'] at hexamined
  rw [h.formula hm hid, hs] at hs'
  cases hs'
  -- types are compared by what has been accepted, as blocks may wait in another order
  have hused := hexamined.addConstants s.unbound
  exact ⟨hused.frame.trans (frame_types _ types), hused.frame'.trans (frame_types _ types'),
    hused.store, hused.constants, hused.standing, hused.scope, hm.types_of_reaches hnext hnext'⟩

/-- From twin moments the runs go on alike. -/
theorem Twins.checkLines (h : Twins f τ bs bs' base base' ctx ctx')
    (hr : Reaches base accepted pending rest ctx)
    (hr' : Reaches base' (accepted.map f) pending' (rest.map fun e => (f e.1, τ e.2)) ctx') :
    SameRun f τ bs bs' base base' (ctx.checkLines accepted pending rest)
      (ctx'.checkLines (accepted.map f) pending' (rest.map fun e => (f e.1, τ e.2))) := by
  induction rest generalizing ctx ctx' accepted pending pending' with
  | nil => exact ⟨.ok rfl, .nil, h⟩
  | cons e rest ih =>
    obtain ⟨n, id⟩ := e
    have hid := hm.unchecked.get?_of_reaches hr
    rw [List.map_cons] at hr' ⊢
    -- both examinations fail, or both succeed
    obtain ⟨hsame, hexamined⟩ := h.examine hm hid
    rcases hexamine : ctx.examine id with ⟨e | _, ctx₁⟩ <;>
      rcases hexamine' : ctx'.examine (τ id) with ⟨e' | _, ctx₁'⟩ <;>
      rw [hexamine, hexamine'] at hsame hexamined
    · simp only [Context.checkLines, hexamine, hexamine']
      cases hsame with
      | error herrors => exact hexamined.fail_after herrors _ _ _ _
    · cases hsame
    · cases hsame
    · cases hsymbols : (ctx.record id).line.formula.symbols with
      | error r =>
        have hsymbols' : (ctx'.record (τ id)).line.formula.symbols = .error r := by
          rw [h.formula hm hid, hsymbols]
        simp only [Context.checkLines, hexamine, hexamine', Context.useSymbols, hsymbols, hsymbols']
        exact hexamined.fail_after (.refusal r r) _ _ _ _
      | ok s =>
        -- nothing hinders either run, so both go on with the next line
        obtain ⟨pending₁, ctx₂, hadvances⟩ := hm.unchecked.proceeds_of_examine hm.current hr
          hexamine ⟨s, hr.frame.line id ▸ hsymbols⟩
        obtain ⟨pending₁', ctx₂', hadvances'⟩ := hm.unchecked'.proceeds_of_examine hm.current' hr'
          hexamine' ⟨s, by rw [← hr'.frame.line, h.formula hm hid, hsymbols]⟩
        rw [hadvances.checkLines_eq, hadvances'.checkLines_eq, h.line hm hid]
        exact (ih (h.advance hm hr hr' hadvances hadvances') (hr.advance hadvances)
          (hr'.advance hadvances')).accept hid _

/-- Contexts that mirror each other are checked alike. -/
theorem Mirror.check : SameRun f τ bs bs' base base' base.check base'.check := by
  have hids : ∀ j ∈ base.sortedLines.map Prod.snd, ∃ m, base.lines.get? m = some j := by
    intro j hj
    obtain ⟨e, he, rfl⟩ := List.mem_map.mp hj
    exact ⟨e.1, hm.unchecked.get?_of_mem_sortedLines e he⟩
  have hsorted : base'.sortedLines.map Prod.snd = (base.sortedLines.map Prod.snd).map τ := by
    rw [hm.sorted, List.map_map, List.map_map]
    rfl
  obtain ⟨hsame, htwins⟩ := hm.twins.usePremises hm hids
  rw [← hsorted] at hsame htwins
  cases hmain : base.main with
  | none =>
    have hmain' : base'.main = none := by
      simpa [hmain] using hm.main
    simp only [Context.check, hmain, hmain']
    exact ⟨.ok rfl, .nil, hm.twins⟩
  | some b =>
    -- both have something to check, and both get through the premises or neither does
    obtain ⟨b', hmain'⟩ := Option.isSome_iff_exists.mp (hm.main.mp (by rw [hmain]; rfl))
    rcases hpremises : base.usePremises (base.sortedLines.map Prod.snd) with ⟨r | _, ctx⟩ <;>
      rcases hpremises' : base'.usePremises (base'.sortedLines.map Prod.snd) with ⟨r' | _, ctx'⟩ <;>
      rw [hpremises, hpremises'] at hsame htwins <;> cases hsame <;>
      simp only [Context.check, hmain, hmain', hpremises, hpremises']
    · exact ⟨.ok rfl, .nil, htwins⟩
    · have hr := Reaches.start (by rw [hmain]; rfl) hpremises
      have hr' := Reaches.start (by rw [hmain']; rfl) hpremises'
      rw [hm.sorted] at hr' ⊢
      exact htwins.checkLines hm hr hr'

end

/-- The order in which blocks and lines are added does not matter, and of the numbers only their
    order does.  Where the same blocks are added, with other numbers in the same order, the check
    ends alike, the same lines are accepted, in the same order and with the same variable contexts,
    and the same blocks have the same types. -/
theorem check_rearranged (standing : Bindings) (f : Int → Int) (bs bs' : List (List Line))
    (hne : ∀ ls ∈ bs, ls ≠ []) (hn : (bs.flatten.map Line.number).Nodup)
    (hf : KeepsOrder f bs) (h : Rearranged f bs bs') :
    let run := (({ standing := standing } : Context).addBlocks bs).check
    let run' := (({ standing := standing } : Context).addBlocks bs').check
    SameOutcome (Fault.Alike f) Eq run.result run'.result ∧
      List.Forall₂ (fun e e' => e'.2 = e.2.relabel f ∧
        run'.context.variablesOf e'.1 = run.context.variablesOf e.1)
        run.acceptances run'.acceptances ∧
      ∀ b b', Paired f bs bs' b b' →
        Option.Rel BlockType.Same (run.context.types.get? b) (run'.context.types.get? b') := by
  intro run run'
  have hrun := (h.mirror hf hne hn standing).check
  refine ⟨hrun.result, hrun.acceptances.imp ?_, fun _ _ => hrun.context.types⟩
  -- what is accepted are twins, so they have the same in scope
  rintro e _ ⟨⟨n, hget⟩, rfl⟩
  exact ⟨rfl, hrun.context.variablesOf hget⟩

/-- A proof that makes a choice in the scope of a name, deduces from a block, and generalizes both,
    and the same proof with the main block first, all lines backwards and tenfold numbers.  The
    block has a type, and a line in it has a name in scope that depends on the choice. -/
theorem check_rearranged_nested :
    let r (u v : String) : Formula := .pred "R" [.named u, .named v]
    let q (u : String) : Formula := .ex (.named "y") (r u "y")
    let goal : Formula := .all (.named "x") (q "x")
    let f : Int → Int := fun n => 10 * n
    let bs : List (List Line) := [
      [⟨4, .atom "A", ⟨"hyp", []⟩⟩, ⟨5, r "c" "d", ⟨"dn", [3]⟩⟩],
      [⟨1, goal, ⟨"prem", []⟩⟩, ⟨2, q "c", ⟨"ui", [1]⟩⟩, ⟨3, r "c" "d", ⟨"ei", [2]⟩⟩,
        ⟨6, .imp (.atom "A") (r "c" "d"), ⟨"ded", [4, 5]⟩⟩, ⟨7, q "c", ⟨"eg", [3]⟩⟩,
        ⟨8, goal, ⟨"ug", [7]⟩⟩]]
    let bs' : List (List Line) := [
      [⟨80, goal, ⟨"ug", [70]⟩⟩, ⟨70, q "c", ⟨"eg", [30]⟩⟩,
        ⟨60, .imp (.atom "A") (r "c" "d"), ⟨"ded", [40, 50]⟩⟩, ⟨30, r "c" "d", ⟨"ei", [20]⟩⟩,
        ⟨20, q "c", ⟨"ui", [10]⟩⟩, ⟨10, goal, ⟨"prem", []⟩⟩],
      [⟨50, r "c" "d", ⟨"dn", [30]⟩⟩, ⟨40, .atom "A", ⟨"hyp", []⟩⟩]]
    let run := (({} : Context).addBlocks bs).check
    let run' := (({} : Context).addBlocks bs').check
    (((∀ ls ∈ bs, ls ≠ []) ∧ (bs.flatten.map Line.number).Nodup ∧
      KeepsOrder f bs ∧ Rearranged f bs bs' ∧ Paired f bs bs' 0 1) ∧
      run.result = .ok true ∧ run.acceptances.length = 8 ∧
      run.context.types.get? 0 = some ⟨[.atom "A"], [.atom "A", r "c" "d"]⟩ ∧
      run.context.variablesOf 1 = ⟨[("c", ["d"])]⟩) ∧
    SameOutcome (Fault.Alike f) Eq run.result run'.result ∧
      List.Forall₂ (fun e e' => e'.2 = e.2.relabel f ∧
        run'.context.variablesOf e'.1 = run.context.variablesOf e.1)
        run.acceptances run'.acceptances ∧
      ∀ b b', Paired f bs bs' b b' →
        Option.Rel BlockType.Same (run.context.types.get? b) (run'.context.types.get? b') := by
  intro r q goal f bs bs' run run'
  have hf : KeepsOrder f bs := fun n m _ _ hlt => by
    simp only [f]
    omega
  have hblocks : (∀ ls ∈ bs, ls ≠ []) ∧ (bs.flatten.map Line.number).Nodup := by
    clear hf
    decide +kernel +revert
  have hknown : run.result = .ok true ∧ run.acceptances.length = 8 ∧
      run.context.types.get? 0 = some ⟨[.atom "A"], [.atom "A", r "c" "d"]⟩ ∧
      run.context.variablesOf 1 = ⟨[("c", ["d"])]⟩ := by
    clear hf hblocks
    decide +kernel +revert
  have hretold : Retold f bs[1] bs'[0] ∧ Retold f bs[0] bs'[1] := by
    clear hf hblocks hknown
    unfold Retold
    decide +kernel +revert
  have hmoved : Rearranged f bs bs' :=
    ⟨bs.reverse, List.reverse_perm bs, .cons hretold.1 (.cons hretold.2 .nil)⟩
  have hpaired : Paired f bs bs' 0 1 := ⟨bs[0], bs'[1], rfl, rfl, hretold.2⟩
  refine ⟨⟨⟨hblocks.1, hblocks.2, hf, hmoved, hpaired⟩, hknown⟩, ?_⟩
  subst run run'
  exact check_rearranged {} f bs bs' hblocks.1 hblocks.2 hf hmoved

end Context

end Sequitur
