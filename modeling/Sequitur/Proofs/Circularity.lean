import Sequitur.Proofs.Provenance
import Sequitur.Proofs.Residue
import Sequitur.Report

/-!
# Circles of citations

A check looks at the lines in the order of their numbers, but a line may cite any line of the
context, whether it was accepted already or not.  Only a deduction has to wait: the block that it
cites has a type when all its lines were accepted, so the numbers of these lines are lower.

So a circle of citations can pass a check, and a line can be cited for itself.  A circle has to
climb somewhere, from a number to one that is at least as high, and it is a line other than a
deduction that cites upwards there.

A line that is cited from below has not come up yet, so it has nothing in scope.  What its rule asks
of the line that cites it is then a matter of the two formulas and of the variables in use
(`PassesBare`).  A universal generalization asks for more, so no such line cites upwards.

## Key results

- `Assembled.lower_of_deduction`: a deduction that is accepted cites lower lines only
- `Unchecked.admits_iff_of_climbs`: when a line that cites upwards is accepted
- `acyclic_iff_no_climb_returns`: when the citations of a proof that passes form no circle
-/

namespace Sequitur.Context

open Relation

/-- The line with the number `n` is no deduction and cites a number that is not lower. -/
def Climbs (ctx : Context) (n m : Int) : Prop :=
  ∃ l, ctx.line? n = some l ∧ l.reason.rule ≠ deductionName ∧ m ∈ l.reason.citations ∧ n ≤ m

variable {base ctx : Context} {accepted : List Int} {pending : List (List Int × BlockId)}
  {rest : List (Int × LineId)} {n m : Int} {id : LineId}

/-- A citation that climbs is a citation. -/
theorem Climbs.cites {n m : Int} (h : ctx.Climbs n m) : ctx.Cites n m := by
  obtain ⟨l, hl, -, hm, -⟩ := h
  exact ⟨l, hl, hm⟩

/-- A deduction that is accepted cites lower lines only. -/
theorem Assembled.lower_of_deduction (ha : ctx.Assembled) (hcheck : ctx.check.result = .ok true)
    {n : Int} {l : Line} (hl : ctx.line? n = some l) (hded : l.reason.rule = deductionName) :
    ∀ m ∈ l.reason.citations, m < n := by
  obtain ⟨id, hid, rfl⟩ := Option.map_eq_some_iff.mp hl
  cases ha.warrant_of_check hcheck (Table.mem_of_get? hid) with
  | rule hnot _ _ _ _ => exact absurd hded hnot
  | deduction _ _ hlower _ _ => exact hlower

/-- A citation goes down or climbs. -/
private theorem Assembled.lower_or_climbs (ha : ctx.Assembled)
    (hcheck : ctx.check.result = .ok true) {n m : Int} (h : ctx.Cites n m) :
    m < n ∨ ctx.Climbs n m := by
  obtain ⟨l, hl, hm⟩ := h
  by_cases hded : l.reason.rule = deductionName
  · exact .inl (ha.lower_of_deduction hcheck hl hded m hm)
  · by_cases hlt : m < n
    · exact .inl hlt
    · exact .inr ⟨l, hl, hded, hm, Int.not_lt.mp hlt⟩

/-- A chain of citations goes down as a whole or has a citation in it that climbs. -/
private theorem Assembled.lower_or_climbs_of_chain (ha : ctx.Assembled)
    (hcheck : ctx.check.result = .ok true) {n m : Int} (h : TransGen ctx.Cites n m) :
    m < n ∨ ∃ c d, ReflTransGen ctx.Cites n c ∧ ctx.Climbs c d ∧ ReflTransGen ctx.Cites d m := by
  induction h with
  | single h =>
    rcases ha.lower_or_climbs hcheck h with hlt | hclimb
    · exact .inl hlt
    · exact .inr ⟨n, _, .refl, hclimb, .refl⟩
  | tail hchain h ih =>
    -- a chain that has gone down so far goes on or climbs with its last citation
    rcases ih with hlt | ⟨c, d, hc, hclimb, hd⟩
    · rcases ha.lower_or_climbs hcheck h with hlt' | hclimb
      · exact .inl (Int.lt_trans hlt' hlt)
      · exact .inr ⟨_, _, hchain.to_reflTransGen, hclimb, .refl⟩
    · exact .inr ⟨c, d, hc, hclimb, hd.tail h⟩

/-! ## What the rules ask of a line that cites upwards -/

/-- The rule that the line `l` names passes it by the formulas of the cited lines, with nothing in
    scope and the variables in `used` in use. -/
def PassesBare (ctx : Context) (used : List Variable) (l : Line) : Prop :=
  ∃ ids r arg, ctx.cite l.reason.citations = .ok ids ∧ Rule.ofName? l.reason.rule = some r ∧
    r.argument? (ids.map ctx.cited) = some arg ∧ arg.verdict l.formula used [] ctx.standing = .ok ()

/-- A universal generalization asks for the variable that it generalizes in scope. -/
private theorem PassesBare.ne_ug {used : List Variable} {l : Line} (h : ctx.PassesBare used l) :
    l.reason.rule ≠ "ug" := by
  obtain ⟨ids, r, arg, -, hname, harg, hverdict⟩ := h
  intro hrule
  rw [hrule, Rule.ofName?, Option.some_inj] at hname
  subst hname
  obtain ⟨q, rfl⟩ := Rule.exists_of_argument?_unary (fun _ => rfl) harg
  -- no variable is in scope
  simp only [Argument.verdict, List.not_mem_nil, if_false] at hverdict
  split at hverdict
  · split at hverdict <;> cases hverdict
  · cases hverdict

/-- The one line that a universal generalization cites has nothing in scope if it is cited from
    below, so what is handed on makes no difference to a line that climbs. -/
private theorem Unchecked.verdict_of_climbs (hu : base.Unchecked)
    (h : Reaches base accepted pending ((n, id) :: rest) ctx) (hclimb : base.Climbs n m)
    {arg : Argument} {vars : VariableContext}
    (hinterpret : ctx.interpret (ctx.record id).line.reason = .ok (arg, vars)) (f : Formula)
    (used : List Variable) (standing : Bindings) :
    arg.verdict f used vars.keys standing = arg.verdict f used [] standing := by
  refine Argument.verdict_congr (fun q hq c => ?_) fun _ _ _ => Iff.rfl
  subst hq
  obtain ⟨k, j, hreason, hj, -, rfl⟩ := (interpret_quantifier_iff rfl).mp hinterpret
  refine iff_of_false (fun hc => ?_) List.not_mem_nil
  -- the cited line is the one above, and it has come up already if it has something in scope
  obtain ⟨l, hl, -, hm, hle⟩ := hclimb
  rw [line?_of_get? (hu.get?_of_reaches h), Option.some_inj, ← h.frame.line] at hl
  obtain rfl : m = k := by simpa [← hl, hreason] using hm
  rw [h.frame.lines] at hj
  have hscope : ctx.InScope j c := by simpa [mem_keys_variablesOf] using
    VariableContext.mem_keys_combine.mp hc
  have hlt := ((hu.mem_accepted_iff h).mp ((hu.scoped h).waiting hj hscope)).1
  exact Int.not_lt.mpr hle hlt

/-- A line that cites upwards is accepted when it passes with nothing in scope and its symbols are
    in order. -/
theorem Unchecked.admits_iff_of_climbs (hu : base.Unchecked)
    (h : Reaches base accepted pending ((n, id) :: rest) ctx) (hclimb : base.Climbs n m) :
    ctx.Admits id ↔ base.PassesBare ctx.constants (base.record id).line ∧
      ∃ s, (base.record id).line.formula.symbols = .ok s := by
  have hfaithful := hu.faithful_reaches h
  have hlt : id < ctx.records.length := by
    rw [hfaithful.records_length]
    exact hu.line_lt (Table.mem_of_get? (hu.get?_of_reaches h))
  have hnot : (base.record id).line.reason.rule ≠ deductionName := by
    obtain ⟨l, hl, hnot, -⟩ := hclimb
    rw [line?_of_get? (hu.get?_of_reaches h), Option.some_inj] at hl
    exact hl ▸ hnot
  rw [admits_iff, PassesBare, ← hfaithful.line, ← hfaithful.standing, ← hfaithful.cite,
    ← hfaithful.cited]
  rw [← hfaithful.line] at hnot
  -- what a check has changed by then are the sets in scope, and these make no difference
  refine and_congr_left fun _ => ⟨?_, ?_⟩
  · rintro ⟨ctx', hexamine⟩
    obtain ⟨arg, vars, hinterpret, -⟩ := examine_eq_ok.mp hexamine
    obtain ⟨ids, hids, -, ⟨hded, -⟩ | ⟨-, r, hname, harg⟩⟩ := interpret_eq_ok.mp hinterpret
    · exact absurd hded hnot
    · have hanswer := fst_examine hlt hinterpret
      rw [hexamine, hu.verdict_of_climbs h hclimb hinterpret] at hanswer
      exact ⟨ids, r, arg, hids, hname, harg, hanswer.symm⟩
  · rintro ⟨ids, r, arg, hids, hname, harg, hverdict⟩
    have hinterpret := interpret_eq_ok.mpr ⟨ids, hids, rfl, .inr ⟨hnot, r, hname, harg⟩⟩
    have hanswer := fst_examine hlt hinterpret
    rw [hu.verdict_of_climbs h hclimb hinterpret, hverdict] at hanswer
    exact ⟨_, Prod.ext hanswer rfl⟩

/-! ## Proofs that pass -/

/-- What is read into an empty context is made of blocks that were not checked. -/
private theorem unchecked_of_addText {standing : Bindings} {text : String}
    {failure : Option Grammar.Unreadable}
    (h : ({ standing := standing } : Context).addText text = (failure, ctx)) : ctx.Unchecked := by
  delta addText at h
  simp only at h
  split at h <;> cases h <;> exact unchecked_addBlocks standing _

/-- In a proof that passes its check, deductions cite lower lines only, and a line that climbs is
    by a rule other than universal generalization which passes it with nothing in scope, while the
    variables of the premises and of the lower lines are in use.  The citations form no circle
    exactly when no citation that climbs is to a line that leads back to where it comes from. -/
theorem acyclic_iff_no_climb_returns (standing : Bindings) (text : String) (ctx : Context)
    (hread : ({ standing := standing } : Context).addText text = (none, ctx))
    (hcheck : ctx.check.result = .ok true) :
    (∀ n l, ctx.line? n = some l → l.reason.rule = deductionName →
        ∀ m ∈ l.reason.citations, m < n) ∧
      (∀ n m, ctx.Climbs n m → ∃ l used, ctx.line? n = some l ∧ l.reason.rule ≠ "ug" ∧
        ctx.PassesBare used l ∧ ∀ v, v ∈ used ↔ ∃ k p, ctx.line? k = some p ∧
          (p.isPremise ∨ k < n) ∧ p.formula.FreeIn v ∧ ¬ p.formula.BoundIn v) ∧
      ((∀ n, ¬ TransGen ctx.Cites n n) ↔
        ∀ n m, ctx.Climbs n m → ¬ ReflTransGen ctx.Cites m n) := by
  have hu : ctx.Unchecked := unchecked_of_addText hread
  have ha := hu.toAssembled
  refine ⟨fun n l hl hded => ha.lower_of_deduction hcheck hl hded, fun n m hclimb => ?_,
    fun h n m hclimb hback => ?_, fun h n hcircle => ?_⟩
  · obtain ⟨l, hl, -⟩ := hclimb.cites
    obtain ⟨j, hj, rfl⟩ := Option.map_eq_some_iff.mp hl
    -- the line is accepted at the moment at which it comes up
    obtain ⟨accepted, pending, rest, now, hreaches, hadmits⟩ :=
      exists_reaches_of_check hcheck (Table.mem_of_get? hj)
    have hpasses := ((hu.admits_iff_of_climbs hreaches hclimb).mp hadmits).1
    exact ⟨_, now.constants, hl, hpasses.ne_ug, hpasses,
      fun v => hu.mem_constants_iff_lower hreaches⟩
  · exact h n (.head' hclimb.cites hback)
  · rcases ha.lower_or_climbs_of_chain hcheck hcircle with hlt | ⟨c, d, hc, hclimb, hd⟩
    · exact Int.lt_irrefl n hlt
    · exact h c d hclimb (hd.trans hc)

/-- A line that cites upwards, without a circle. -/
theorem acyclic_iff_no_climb_returns_upwards :
    let text := "1. A simpl 2; 2. A /\\ B prem; { 3. C hyp; } 4. C -> C ded 3;"
    let ctx := (({} : Context).addText text).2
    (({} : Context).addText text = (none, ctx) ∧ ctx.check.result = .ok true ∧ ctx.Climbs 1 2) ∧
      (∀ n l, ctx.line? n = some l → l.reason.rule = deductionName →
        ∀ m ∈ l.reason.citations, m < n) ∧
      (∀ n m, ctx.Climbs n m → ∃ l used, ctx.line? n = some l ∧ l.reason.rule ≠ "ug" ∧
        ctx.PassesBare used l ∧ ∀ v, v ∈ used ↔ ∃ k p, ctx.line? k = some p ∧
          (p.isPremise ∨ k < n) ∧ p.formula.FreeIn v ∧ ¬ p.formula.BoundIn v) ∧
      ((∀ n, ¬ TransGen ctx.Cites n n) ↔
        ∀ n m, ctx.Climbs n m → ¬ ReflTransGen ctx.Cites m n) := by
  intro text ctx
  have hread : ({} : Context).addText text = (none, ctx) :=
    Prod.ext (by decide +kernel +revert) rfl
  have hcheck : ctx.check.result = .ok true := by
    clear hread
    decide +kernel +revert
  have hline : ctx.line? 1 = some ⟨1, .atom "A", ⟨"simpl", [2]⟩⟩ := by
    clear hread hcheck
    decide +kernel +revert
  have hclimb : ctx.Climbs 1 2 := ⟨_, hline, by decide, by decide, by decide⟩
  exact ⟨⟨hread, hcheck, hclimb⟩, acyclic_iff_no_climb_returns {} text ctx hread hcheck⟩

/-- A line that is cited for itself passes. -/
theorem self_citation_passes :
    let ctx := (({} : Context).addText "1. A dn 1;").2
    (({} : Context).addText "1. A dn 1;").1 = none ∧ ctx.check.result = .ok true ∧
      TransGen ctx.Cites 1 1 := by
  refine ⟨by decide +kernel, by decide +kernel, .single ⟨⟨1, .atom "A", ⟨"dn", [1]⟩⟩, ?_, ?_⟩⟩
  · decide +kernel
  · decide

end Sequitur.Context
