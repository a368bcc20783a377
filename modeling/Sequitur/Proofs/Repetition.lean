import Sequitur.Proofs.Breakdown
import Sequitur.Proofs.Circularity

/-!
# Checking again

A second check of a context starts from what the first has left behind.  It examines the same lines
in the same order, and as long as it accepts what the first accepted, it knows what the first knew
in the end.  Two things can go otherwise.

The variables that the first run took to be in use are still in use.  So a choice that the first run
accepted is not fresh any more if its variable has come into use, and the second run refuses it.

And lines keep their scopes.  So a line that cites upwards may have more in scope than in the first
run, and a universal generalization at which the first run stopped may pass.

## Key results

- `Ahead.exists_examine`: what is accepted once is accepted with more known, choices apart
- `reaches_again`: the second run follows the first, up to a choice that is spent
- `check_again`: what the second check answers
-/

namespace Sequitur.Context

variable {base ctx ctx' ctx₁ ctx₂ ctx₃ left again again' again₁ again₂ again₃ : Context}
  {accepted : List Int} {pending pending' : List (List Int × BlockId)}
  {rest : List (Int × LineId)} {n : Int} {id : LineId} {reason : Reason} {arg : Argument}
  {vars : VariableContext}

/-! ## One line, examined with more known -/

/-- Lines and blocks that are the same are so in both directions. -/
theorem Frame.symm (h : Frame ctx ctx') : Frame ctx' ctx :=
  ⟨h.lines.symm, h.registered.symm, h.blocks.symm, h.main.symm, h.records_length.symm,
    fun j => (h.line j).symm⟩

/-- A deduction means the same as long as the same types are known. -/
private theorem Frame.deduction_eq (h : Frame ctx ctx')
    (htypes : ∀ b, ctx.types.get? b = ctx'.types.get? b) (ns : List Int) :
    ctx'.deduction ns = ctx.deduction ns := by
  simp only [deduction, h.registered, htypes, blockText, h.blockLines]

/-- A deduction that means something means the same when more types are known. -/
private theorem Faithful.deduction_eq (h : Faithful base ctx) (h' : Faithful base ctx')
    (hgrows : Grows ctx ctx') {ns : List Int} (hded : ctx.deduction ns = .ok arg) :
    ctx'.deduction ns = .ok arg := by
  obtain ⟨b, type, hyp, hb, htype, hhyp, rfl⟩ := deduction_ok hded
  obtain ⟨type', htype'⟩ := Option.isSome_iff_exists.mp (hgrows.types (by rw [htype]; rfl))
  rw [h.registered, ← h'.registered] at hb
  -- both types are what the lines of the block say
  have heq : type' = type := (h'.types htype').trans (h.types htype).symm
  simp only [deduction, hb, htype', heq, hhyp]

/-- A reason means the same as long as deductions do, up to what is handed on. -/
private theorem Frame.interpret_eq (h : Frame ctx ctx')
    (hded : reason.rule = deductionName →
      ctx'.deduction reason.citations = ctx.deduction reason.citations) :
    (ctx'.interpret reason).map Prod.fst = (ctx.interpret reason).map Prod.fst := by
  unfold interpret
  rw [h.cite, h.cited]
  cases ctx.cite reason.citations with
  | error f => rfl
  | ok ids =>
    simp only
    split
    · -- only a deduction looks at more than lines
      rename_i hrule
      rw [hded hrule]
      cases ctx.deduction reason.citations <;> rfl
    · cases Rule.ofName? reason.rule with
      | none => rfl
      | some rule =>
        simp only
        cases rule.argument? (ids.map ctx.cited) <;> rfl

/-- A meaning that is told without what is handed on. -/
private theorem exists_of_map_fst_eq {x : Except Failure (Argument × VariableContext)}
    (h : x.map Prod.fst = .ok arg) : ∃ vars, x = .ok (arg, vars) := by
  cases x with
  | error e => cases h
  | ok p =>
    cases h
    exact ⟨p.2, rfl⟩

/-- What a reason hands on is what the cited lines have in scope. -/
private theorem mem_keys_of_interpret (h : ctx.interpret reason = .ok (arg, vars)) {c : String} :
    c ∈ vars.keys ↔
      ∃ m ∈ reason.citations, ∃ j, ctx.lines.get? m = some j ∧ ctx.InScope j c := by
  obtain ⟨ids, hids, rfl, -⟩ := interpret_eq_ok.mp h
  rw [VariableContext.mem_keys_combine, ← exists_mem_cite_iff hids]
  simp only [List.mem_map, exists_exists_and_eq_and, mem_keys_variablesOf]

/-- An examination that fails to give a meaning fails so when what is handed on does not count. -/
private theorem eq_error_of_map_fst_eq {x : Except Failure (Argument × VariableContext)}
    {e : Failure} (h : x.map Prod.fst = .error e) : x = .error e := by
  cases x with
  | error e =>
    cases h
    rfl
  | ok p => cases h

/-- The line `id`, whose number is `n`, comes up in the context `ctx` and in the context `again`, in
    which more is known. -/
structure Ahead (base : Context) (n : Int) (id : LineId) (ctx again : Context) : Prop where
  get? : base.lines.get? n = some id
  lt : id < base.records.length
  first : Faithful base ctx
  second : Faithful base again
  grows : Grows ctx again
  inScope : ∀ {j c}, ctx.InScope j c → again.InScope j c

namespace Ahead

variable (h : Ahead base n id ctx again)

include h

/-- Both contexts have the same lines and blocks. -/
theorem frame : Frame ctx again := h.first.toFrame.symm.trans h.second.toFrame

/-- The line is the same in both. -/
private theorem line_eq : (again.record id).line = (ctx.record id).line := h.frame.line id

/-- An examination that passes in both leaves them with the same lines and blocks. -/
private theorem frame_examine (hexamine : ctx.examine id = (.ok (), ctx'))
    (hexamine' : again.examine id = (.ok (), again')) : Frame ctx' again' := by
  obtain ⟨_, hexamined⟩ := examined_of_ok hexamine
  obtain ⟨_, hexamined'⟩ := examined_of_ok hexamine'
  exact (hexamined.toFrame.symm.trans h.frame).trans hexamined'.toFrame

/-- What is handed on is handed on when more is in scope. -/
private theorem keys_subset {vars' : VariableContext}
    (hctx : ctx.interpret reason = .ok (arg, vars))
    (hagain : again.interpret reason = .ok (arg, vars')) : vars.keys ⊆ vars'.keys := by
  intro c hc
  obtain ⟨m, hm, j, hj, hin⟩ := (mem_keys_of_interpret hctx).mp hc
  exact (mem_keys_of_interpret hagain).mpr ⟨m, hm, j, h.frame.lines ▸ hj, h.inScope hin⟩

/-- A reason that means something means the same when more is known. -/
private theorem exists_interpret (hctx : ctx.interpret reason = .ok (arg, vars)) :
    ∃ vars', again.interpret reason = .ok (arg, vars') := by
  refine exists_of_map_fst_eq ?_
  rw [h.frame.interpret_eq fun hrule => ?_, hctx]
  · rfl
  · obtain ⟨ids, -, ⟨-, hded⟩ | ⟨hnot, -⟩⟩ := interpret_ok hctx
    · rw [hded, h.first.deduction_eq h.second h.grows hded]
    · exact absurd hrule hnot

/-- The answers in both contexts are the verdicts on one argument. -/
private theorem fst_examine_eq {vars' : VariableContext}
    (hctx : ctx.interpret (ctx.record id).line.reason = .ok (arg, vars))
    (hagain : again.interpret (ctx.record id).line.reason = .ok (arg, vars')) :
    (ctx.examine id).1 =
        arg.verdict (ctx.record id).line.formula ctx.constants vars.keys ctx.standing ∧
      (again.examine id).1 =
        arg.verdict (ctx.record id).line.formula again.constants vars'.keys ctx.standing := by
  refine ⟨fst_examine (h.first.records_length ▸ h.lt) hctx, ?_⟩
  rw [fst_examine (h.second.records_length ▸ h.lt) (h.line_eq ▸ hagain), h.line_eq,
    h.second.standing, h.first.standing]

/-- A line that passes its examination passes when more is known, unless it chooses a variable that
    is in use by then. -/
theorem exists_examine (hfresh : ∀ w, base.Chooses n w → w ∉ again.constants)
    (hexamine : ctx.examine id = (.ok (), ctx')) :
    ∃ again', again.examine id = (.ok (), again') := by
  obtain ⟨arg, vars, hctx, -⟩ := examine_eq_ok.mp hexamine
  obtain ⟨vars', hagain⟩ := h.exists_interpret hctx
  obtain ⟨hpass, hanswer⟩ := h.fst_examine_eq hctx hagain
  rw [hexamine] at hpass
  rw [Argument.verdict_of_subset hpass.symm (h.keys_subset hctx hagain)] at hanswer
  · exact ⟨_, Prod.ext hanswer rfl⟩
  · intro q v body w harg hq hw
    refine hfresh w ?_
    -- the argument makes a choice, so the line does
    have hget : ctx.lines.get? n = some id := h.first.lines ▸ h.get?
    rw [← h.first.toFrame.chooses, chooses_iff hget hctx]
    exact ⟨q, harg, v, body, hq, hw⟩

/-- A universal generalization that fails fails in the same way, unless it cites a line with more in
    scope. -/
private theorem ug_error {q : Cited} {vars' : VariableContext} {e : Failure}
    (hctx : ctx.interpret (ctx.record id).line.reason = .ok (.universalGeneralization q, vars))
    (hagain : again.interpret (ctx.record id).line.reason = .ok (.universalGeneralization q, vars'))
    (hfail : (ctx.examine id).1 = .error e) :
    (again.examine id).1 = .error e ∨
      (base.record id).line.reason.rule = "ug" ∧ (∃ r, e = .refusal r) ∧
        (∀ f, (again.examine id).1 ≠ .error (.fault f)) ∧
        ∃ m ∈ (base.record id).line.reason.citations, ∃ j c,
          base.lines.get? m = some j ∧ again.InScope j c ∧ ¬ ctx.InScope j c := by
  have hsubset := h.keys_subset hctx hagain
  by_cases hsame : vars'.keys ⊆ vars.keys
  · -- nothing more is in scope
    obtain ⟨hanswer, hanswer'⟩ := h.fst_examine_eq hctx hagain
    left
    rw [hanswer', ← hfail, hanswer]
    exact Argument.verdict_congr (fun _ _ c => ⟨@hsame c, @hsubset c⟩) fun q' heq => by cases heq
  · obtain ⟨m, j, hreason, -⟩ := (interpret_quantifier_iff rfl).mp hctx
    obtain ⟨c, hc, hnot⟩ : ∃ c, c ∈ vars'.keys ∧ c ∉ vars.keys := by
      by_contra! hall
      exact hsame hall
    obtain ⟨m', hm', k, hk, hin⟩ := (mem_keys_of_interpret hagain).mp hc
    refine .inr ⟨?_, ?_, fun f hf => ?_, m', h.first.line id ▸ hm', k, c, h.second.lines ▸ hk, hin,
      fun hin' => hnot ((mem_keys_of_interpret hctx).mpr ⟨m', hm', k, h.frame.lines ▸ hk, hin'⟩)⟩
    · rw [← h.first.line, hreason]
    · cases e with
      | refusal r => exact ⟨r, rfl⟩
      | fault f =>
        rw [examine_eq_fault_iff, hctx] at hfail
        cases hfail
    · rw [examine_eq_fault_iff, h.line_eq, hagain] at hf
      cases hf

/-- A line that fails its examination fails in the same way when no more types are known, unless it
    is a universal generalization that cites a line with more in scope. -/
private theorem examine_error (htypes : ∀ b, ctx.types.get? b = again.types.get? b) {e : Failure}
    (hfail : (ctx.examine id).1 = .error e) :
    (again.examine id).1 = .error e ∨
      (base.record id).line.reason.rule = "ug" ∧ (∃ r, e = .refusal r) ∧
        (∀ f, (again.examine id).1 ≠ .error (.fault f)) ∧
        ∃ m ∈ (base.record id).line.reason.citations, ∃ j c,
          base.lines.get? m = some j ∧ again.InScope j c ∧ ¬ ctx.InScope j c := by
  have hfst : (again.interpret (ctx.record id).line.reason).map Prod.fst =
      (ctx.interpret (ctx.record id).line.reason).map Prod.fst :=
    h.frame.interpret_eq fun _ => h.frame.deduction_eq htypes _
  cases hctx : ctx.interpret (ctx.record id).line.reason with
  | error x =>
    -- the reason means nothing in both
    rw [hctx] at hfst
    have hagain := eq_error_of_map_fst_eq hfst
    simp only [Context.examine, hctx] at hfail
    simp only [Context.examine, h.line_eq, hagain]
    exact .inl hfail
  | ok p =>
    obtain ⟨arg, vars⟩ := p
    rw [hctx] at hfst
    obtain ⟨vars', hagain⟩ := exists_of_map_fst_eq hfst
    by_cases hug : ∃ q, arg = .universalGeneralization q
    · obtain ⟨q, rfl⟩ := hug
      exact h.ug_error hctx hagain hfail
    · obtain ⟨hanswer, hanswer'⟩ := h.fst_examine_eq hctx hagain
      rw [hfail] at hanswer
      left
      rw [hanswer']
      exact Argument.verdict_error_of_subset hanswer.symm h.grows.constants
        fun q hq => hug ⟨q, hq⟩

/-- A line that is accepted is accepted when more is known, and the run goes on after it, unless it
    chooses a variable that is in use by then. -/
theorem exists_advances (hfresh : ∀ w, base.Chooses n w → w ∉ again.constants)
    (hadvances : ctx.Advances accepted pending n id pending' ctx') :
    ∃ again', again.Advances accepted pending n id pending' again' := by
  have hpending := hadvances.pending_eq
  obtain ⟨ctx₁, ctx₂, hexamine, hsymbols, hcompile⟩ := hadvances
  obtain ⟨again₁, hexamine'⟩ := h.exists_examine hfresh hexamine
  obtain ⟨s, hs, rfl⟩ := useSymbols_ok hsymbols
  have hsymbols' : again₁.useSymbols (again.record id).line.formula =
      (.ok (), again₁.addConstants s.unbound) := by
    rw [useSymbols, h.line_eq, hs]
  -- the lines of the blocks that are complete have been examined in both
  obtain ⟨pending'', again', hcompile'⟩ : ∃ pending'' again',
      (again₁.addConstants s.unbound).compileReady (n :: accepted) pending =
        (.ok pending'', again') := by
    refine exists_compileReady_of_argument ?_ (fun {j} hj => ?_) ⟨_, _, hcompile⟩
    · exact (h.frame_examine hexamine hexamine').blocks
    · exact (isSome_argument_examine (h.second.records_length ▸ h.lt) hexamine').mpr
        (((isSome_argument_examine (h.first.records_length ▸ h.lt) hexamine).mp
          hj).imp_right h.grows.argument)
  rw [hpending, ← pending_of_compileReady hcompile']
  exact ⟨again', again₁, _, hexamine', hsymbols', hcompile'⟩

end Ahead

/-- What is in scope after a line was accepted, told by the lines as they were added. -/
private theorem Faithful.inScope_advances (h : Faithful base ctx)
    (hget : base.lines.get? n = some id) (hlt : id < base.records.length)
    (hadvances : ctx.Advances accepted pending n id pending' ctx') :
    (∀ {j c}, j ≠ id → (ctx'.InScope j c ↔ ctx.InScope j c)) ∧
      ∀ {c}, ctx'.InScope id c ↔ (∃ v body w, base.Introduces n v body w ∧ w.name = c) ∨
        (∃ m ∈ (base.record id).line.reason.citations, ∃ j, base.lines.get? m = some j ∧
          ctx.InScope j c) ∧ ∀ w, base.Generalizes n w → w.name ≠ c := by
  obtain ⟨ids, hids, hhanded⟩ := hadvances.handed (h.lines ▸ hget) (h.records_length ▸ hlt)
    h.housed
  have hself {c : String} : ctx'.InScope id c ↔ _ := hhanded.inScope_self
  simp only [exists_mem_cite_iff hids, h.introduces, h.generalizes, h.lines, h.line] at hself
  exact ⟨hhanded.inScope_of_ne, hself⟩

/-- Over a line that is accepted in both, more stays in scope. -/
theorem Ahead.inScope_step {pending₁ pending₂ : List (List Int × BlockId)}
    (h : Ahead base n id ctx again) (hadvances : ctx.Advances accepted pending n id pending₁ ctx')
    (hadvances' : again.Advances accepted pending n id pending₂ again') {j : LineId} {c : String}
    (hin : ctx'.InScope j c) : again'.InScope j c := by
  obtain ⟨hother, hself⟩ := h.first.inScope_advances h.get? h.lt hadvances
  obtain ⟨hother', hself'⟩ := h.second.inScope_advances h.get? h.lt hadvances'
  by_cases hj : j = id
  · subst hj
    -- what it introduces and generalizes is a matter of the lines alone
    refine hself'.mpr ((hself.mp hin).imp_right fun ⟨⟨m, hm, k, hk, hkc⟩, hgen⟩ => ?_)
    exact ⟨⟨m, hm, k, hk, h.inScope hkc⟩, hgen⟩
  · exact (hother' hj).mpr (h.inScope ((hother hj).mp hin))

/-- A line chooses one variable. -/
theorem Chooses.unique {w w' : Variable} (h : ctx.Chooses n w) (h' : ctx.Chooses n w') :
    w = w' := by
  obtain ⟨l, k, hfrom, v, body, hf, hfound⟩ := h
  obtain ⟨l', k', hfrom', v', body', hf', hfound'⟩ := h'
  obtain ⟨rfl, rfl⟩ := hfrom.unique hfrom'
  cases hf.symm.trans hf'
  rw [hfound, Except.ok.injEq] at hfound'
  exact hfound'

/-- A choice that passes is of a variable that is not in use. -/
theorem not_mem_constants_of_examine (hget : ctx.lines.get? n = some id)
    (h : ctx.examine id = (.ok (), ctx')) {w : Variable} (hw : ctx.Chooses n w) :
    w ∉ ctx.constants := by
  have hrule : (ctx.record id).line.reason.rule = "ei" := by
    obtain ⟨l, k, ⟨hl, m, hreason, -⟩, -⟩ := hw
    rw [line?_of_get? hget, Option.some_inj] at hl
    rw [hl, hreason]
  obtain ⟨w', hw', hnot⟩ := (exists_examine_ei_iff hget hrule).mp ⟨ctx', h⟩
  exact hw.unique hw' ▸ hnot

/-! ## Both runs -/

/-- The first check of `base` has left the context `left`.  When it had accepted the numbers in
    `accepted`, its context was `ctx`; the second check is at the same place with the context
    `again`. -/
structure Again (base left : Context) (accepted : List Int) (ctx again : Context) : Prop where
  /-- The second run has found out nothing new. -/
  grows : Grows again left
  inScope : ∀ {j c}, ctx.InScope j c → again.InScope j c
  /-- Without citations that climb, the lines that were accepted have the same in scope. -/
  same : (∀ n m, ¬ base.Climbs n m) → ∀ {m j c}, m ∈ accepted → base.lines.get? m = some j →
    again.InScope j c → ctx.InScope j c

/-- Where no citation climbs, a line that is accepted cites lines that were accepted before. -/
private theorem Assembled.accepted_of_cited (ha : base.Assembled)
    (h : Reaches base accepted pending ((n, id) :: rest) ctx)
    (hflat : ∀ n m, ¬ base.Climbs n m)
    (hded : (base.record id).line.reason.rule = deductionName →
      ∃ ctx', ctx.examine id = (.ok (), ctx'))
    {m : Int} (hm : m ∈ (base.record id).line.reason.citations) {j : LineId}
    (hj : base.lines.get? m = some j) : m ∈ accepted := by
  have hget := ha.get?_of_reaches h
  refine (ha.mem_accepted_iff h).mpr ⟨?_, j, hj⟩
  by_cases hrule : (base.record id).line.reason.rule = deductionName
  · obtain ⟨ctx', hexamine⟩ := hded hrule
    obtain ⟨arg, hexamined⟩ := examined_of_ok hexamine
    cases (ha.progress_of_reaches h).1.warrant ha hexamined
      fun k hk => ((ha.mem_accepted_iff h).mp hk).1 with
    | rule hnot _ _ _ _ => exact absurd hrule hnot
    | deduction _ _ hlower _ _ => exact hlower m hm
  · by_contra hge
    exact hflat n m ⟨_, line?_of_get? hget, hrule, hm, Int.not_lt.mp hge⟩

/-- What a run has found out at a moment it leaves behind. -/
private theorem Reaches.grows (ha : base.Assembled) (h : Reaches base accepted pending rest ctx) :
    Grows ctx base.check.context := by
  obtain ⟨notices, hcheck⟩ := h.exists_check_eq
  obtain ⟨done, hsorted, -⟩ := h.exists_sortedLines_eq
  rw [hcheck]
  refine (kept_grows base ctx).checkLines (fun e he => ha.get?_of_mem_sortedLines e ?_) (.refl ctx)
  rw [hsorted]
  exact List.mem_append_right _ he

section

variable (ha : base.Assembled) (h : Again base left accepted ctx again)
  (hahead : Ahead base n id ctx again)
  (hreaches : Reaches base accepted pending ((n, id) :: rest) ctx)
  {pending₁ pending₂ : List (List Int × BlockId)}
  (hadvances : ctx.Advances accepted pending n id pending₁ ctx')
  (hadvances' : again.Advances accepted pending n id pending₂ again')

include h hahead hadvances hadvances'

/-- Over a line that both runs accept, the second finds out nothing new. -/
private theorem Again.grows_step (hleft : Grows ctx' left) : Grows again' left where
  constants := by
    intro w hw
    rcases hadvances'.mem_constants_iff.mp hw with hw | hw
    · exact h.grows.constants hw
    · rw [hahead.line_eq] at hw
      exact hleft.constants (hadvances.mem_constants_iff.mpr (.inr hw))
  types hb := by
    -- both runs have the same blocks waiting, and find the types of the same ones
    rcases hadvances'.typed_iff.mp hb with hb | hready
    · exact h.grows.types hb
    · exact hleft.types (hadvances.typed_iff.mpr (.inr hready))
  argument hj := by
    have hlt := hahead.first.records_length ▸ hahead.lt
    have hlt' := hahead.second.records_length ▸ hahead.lt
    rcases (hadvances'.isSome_argument_iff hlt').mp hj with rfl | hj
    · exact hleft.argument ((hadvances.isSome_argument_iff hlt).mpr (.inl rfl))
    · exact h.grows.argument hj

include ha hreaches

/-- The two runs stay together over a line that both accept. -/
theorem Again.step (hleft : Grows ctx' left) : Again base left (n :: accepted) ctx' again' := by
  obtain ⟨hother, hself⟩ := hahead.first.inScope_advances hahead.get? hahead.lt hadvances
  obtain ⟨hother', hself'⟩ := hahead.second.inScope_advances hahead.get? hahead.lt hadvances'
  refine ⟨h.grows_step hahead hadvances hadvances' hleft,
    hahead.inScope_step hadvances hadvances', fun hflat {m j c} hm hj hin => ?_⟩
  by_cases hid : j = id
  · subst hid
    refine hself.mpr ((hself'.mp hin).imp_right fun ⟨⟨k, hk, i, hi, hin⟩, hgen⟩ => ⟨?_, hgen⟩)
    -- all that it cites was accepted before
    have hbefore := ha.accepted_of_cited hreaches hflat (fun _ => hadvances.exists_examine) hk hi
    exact ⟨k, hk, i, hi, h.same hflat hbefore hi hin⟩
  · have hm' : m ∈ accepted := by
      rcases List.mem_cons.mp hm with rfl | hm
      · rw [hahead.get?, Option.some_inj] at hj
        exact absurd hj.symm hid
      · exact hm
    exact (hother hid).mpr (h.same hflat hm' hj ((hother' hid).mp hin))

end

/-- What the symbols of the premises give depends on the lines only. -/
private theorem Frame.fst_usePremises (h : Frame ctx ctx') (ids : List LineId) :
    (ctx'.usePremises ids).1 = (ctx.usePremises ids).1 := by
  induction ids generalizing ctx ctx' with
  | nil => rfl
  | cons j ids ih =>
    simp only [usePremises, useSymbols, h.line]
    split
    · cases (ctx.record j).line.formula.symbols with
      | error r => rfl
      | ok s =>
        simp only
        exact ih ⟨h.lines, h.registered, h.blocks, h.main, h.records_length, h.line⟩
    · exact ih h

/-- The lines come up in the same order. -/
theorem Frame.sortedLines (h : Frame ctx ctx') : ctx'.sortedLines = ctx.sortedLines := by
  rw [Context.sortedLines, Context.sortedLines, h.lines]

section

variable (hu : base.Unchecked)

include hu

/-- Where a check starts, nothing has been found out. -/
theorem Unchecked.bare_start
    (hpremises : base.usePremises (base.sortedLines.map Prod.snd) = (.ok (), ctx)) :
    (∀ j c, ¬ ctx.InScope j c) ∧ ctx.types = {} ∧ ∀ j, (ctx.record j).argument = none := by
  obtain ⟨constants, hctx⟩ := usePremises_context base (base.sortedLines.map Prod.snd)
  rw [hpremises] at hctx
  subst hctx
  refine ⟨fun j c hin => ?_, hu.untyped, hu.unexamined⟩
  have hscope : c ∈ (base.record j).scope.keys := hin
  rw [hu.scope_eq] at hscope
  cases hscope

/-- Where the check of `base` starts, a run of the same lines from another context starts as well.
    The variables of the premises come into use in both. -/
theorem Unchecked.exists_start (hleft : Frame base left) (hmain : base.main.isSome)
    (hpremises : base.usePremises (base.sortedLines.map Prod.snd) = (.ok (), ctx)) :
    ∃ constants, Reaches left [] ctx.registered.entries base.sortedLines
        { left with constants := constants } ∧
      ∀ w, w ∈ constants ↔ w ∈ left.constants ∨ w ∈ ctx.constants := by
  obtain ⟨again, hagain⟩ : ∃ again,
      left.usePremises (left.sortedLines.map Prod.snd) = (.ok (), again) := by
    refine ⟨_, Prod.ext ?_ rfl⟩
    rw [hleft.sortedLines, hleft.fst_usePremises, hpremises]
  have hreaches := Reaches.start (hleft.main ▸ hmain) hagain
  obtain ⟨constants, heq⟩ := usePremises_context left (left.sortedLines.map Prod.snd)
  rw [hagain] at heq
  subst heq
  refine ⟨constants, ?_, fun w => ?_⟩
  · have hregistered : ctx.registered = left.registered :=
      (Reaches.start hmain hpremises).frame.registered.trans hleft.registered.symm
    rw [hregistered, ← hleft.sortedLines]
    exact hreaches
  · -- no variable is in use before the premises of `base` are looked through
    rw [show w ∈ constants ↔ _ from mem_constants_usePremises hagain,
      mem_constants_usePremises hpremises, hu.constants_eq, hleft.sortedLines]
    simp only [hleft.line, List.not_mem_nil, false_or]

/-- What the first run has left behind is true. -/
private theorem Unchecked.faithful_check : Faithful base base.check.context :=
  (kept_faithful hu.toAssembled).check hu.get?_of_mem_sortedLines hu.faithful

/-- What is known in the second run is true. -/
private theorem Unchecked.faithful_again
    (h : Reaches base.check.context accepted pending rest again) : Faithful base again :=
  (kept_faithful hu.toAssembled).reaches hu.get?_of_mem_sortedLines hu.faithful_check.sortedLines
    hu.faithful_check h

/-- What the first run has found out is known throughout the second. -/
private theorem Unchecked.grows_again (h : Reaches base.check.context accepted pending rest again) :
    Grows base.check.context again :=
  (kept_grows base base.check.context).reaches hu.get?_of_mem_sortedLines
    hu.faithful_check.sortedLines (.refl _) h

/-- The second run starts together with the first. -/
private theorem Unchecked.start_again (hmain : base.main.isSome)
    (hpremises : base.usePremises (base.sortedLines.map Prod.snd) = (.ok (), ctx)) :
    ∃ again, Reaches base.check.context [] ctx.registered.entries base.sortedLines again ∧
      Again base base.check.context [] ctx again := by
  have hleft := hu.faithful_check
  obtain ⟨constants, hreaches, hconstants⟩ := hu.exists_start hleft.toFrame hmain hpremises
  refine ⟨_, hreaches, ⟨fun w hw => ?_, id, id⟩,
    fun {j c} hin => absurd hin ((hu.bare_start hpremises).1 j c),
    fun _ {m j c} hm => absurd hm List.not_mem_nil⟩
  -- the variables of the premises came into use in the first run
  refine ((hconstants w).mp hw).elim id fun hin => ?_
  exact ((Reaches.start hmain hpremises).grows hu.toAssembled).constants hin

/-- At a line that both runs come to, the second knows more. -/
theorem Unchecked.ahead (hreaches : Reaches base accepted pending ((n, id) :: rest) ctx)
    (hreaches' : Reaches base.check.context accepted pending ((n, id) :: rest) again)
    (h : Again base base.check.context accepted ctx again) : Ahead base n id ctx again where
  get? := hu.get?_of_reaches hreaches
  lt := hu.line_lt (Table.mem_of_get? (hu.get?_of_reaches hreaches))
  first := hu.faithful_reaches hreaches
  second := hu.faithful_again hreaches'
  grows := (hreaches.grows hu.toAssembled).trans (hu.grows_again hreaches')
  inScope := h.inScope

/-- The second run refuses a choice of a variable that has come into use. -/
private theorem Unchecked.result_of_spent
    (hreaches : Reaches base accepted pending ((n, id) :: rest) ctx)
    (hreaches' : Reaches base.check.context accepted pending ((n, id) :: rest) again)
    (h : Again base base.check.context accepted ctx again)
    (hpasses : ∃ ctx', ctx.examine id = (.ok (), ctx')) {w : Variable} (hw : base.Chooses n w)
    (hspent : w ∈ base.check.context.constants) :
    base.check.context.check.result = .ok false := by
  have hahead := hu.ahead hreaches hreaches' h
  obtain ⟨ctx', hexamine⟩ := hpasses
  obtain ⟨arg, vars, hinterpret, -⟩ := examine_eq_ok.mp hexamine
  obtain ⟨vars', hinterpret'⟩ := hahead.exists_interpret hinterpret
  rcases hresult : again.examine id with ⟨e | _, again'⟩
  · rw [(hreaches'.check_of_error hresult).1]
    cases e with
    | refusal r => rfl
    | fault f =>
      -- the reason means something
      have hfault := examine_eq_fault_iff.mp (congrArg Prod.fst hresult)
      rw [hahead.line_eq, hinterpret'] at hfault
      cases hfault
  · -- a choice that passes is of a variable that is not in use
    exact absurd ((hu.grows_again hreaches').constants hspent)
      (not_mem_constants_of_examine (hahead.second.lines ▸ hahead.get?) hresult
        (hahead.second.chooses ▸ hw))

/-- The second run follows the first up to any moment, or it stops before with a refusal, at a
    choice of a variable that has come into use. -/
theorem Unchecked.reaches_again (h : Reaches base accepted pending rest ctx) :
    (∃ again, Reaches base.check.context accepted pending rest again ∧
        Again base base.check.context accepted ctx again ∧
        ∀ n ∈ accepted, ∀ w, base.Chooses n w → w ∉ base.check.context.constants) ∨
      (∃ n ∈ accepted, ∃ w, base.Chooses n w ∧ w ∈ base.check.context.constants) ∧
        base.check.context.check.result = .ok false := by
  induction h with
  | start hmain hpremises =>
    obtain ⟨again, hreaches, hagain⟩ := hu.start_again hmain hpremises
    exact .inl ⟨again, hreaches, hagain, by simp⟩
  | @step ctx ctx₁ ctx₂ ctx₃ accepted pending pending' n id rest before hexamine hsymbols hcompile
      ih =>
    rcases ih with ⟨again, hreaches, hagain, hfresh⟩ | ⟨⟨m, hm, w, hspent⟩, hresult⟩
    · by_cases hspent : ∃ w, base.Chooses n w ∧ w ∈ base.check.context.constants
      · obtain ⟨w, hw, hin⟩ := hspent
        exact .inr ⟨⟨n, List.mem_cons_self, w, hw, hin⟩,
          hu.result_of_spent before hreaches hagain ⟨_, hexamine⟩ hw hin⟩
      · have hfresh' : ∀ w, base.Chooses n w → w ∉ base.check.context.constants :=
          fun w hw hin => hspent ⟨w, hw, hin⟩
        have hadvances : ctx.Advances accepted pending n id pending' ctx₃ :=
          ⟨ctx₁, ctx₂, hexamine, hsymbols, hcompile⟩
        have hahead := hu.ahead before hreaches hagain
        obtain ⟨again', hadvances'⟩ := hahead.exists_advances
          (fun w hw hin => hfresh' w hw (hagain.grows.constants hin)) hadvances
        -- what the first run knows after the line it leaves behind
        have hleft := (before.step hexamine hsymbols hcompile).grows hu.toAssembled
        exact .inl ⟨again', hreaches.advance hadvances',
          hagain.step hu.toAssembled hahead before hadvances hadvances' hleft,
          List.forall_mem_cons.mpr ⟨hfresh', hfresh⟩⟩
    · exact .inr ⟨⟨m, List.mem_cons_of_mem _ hm, w, hspent⟩, hresult⟩

/-! ## Where the first run stops -/

section

variable (hreaches : Reaches base accepted pending ((n, id) :: rest) ctx)
  (hreaches' : Reaches base.check.context accepted pending ((n, id) :: rest) again)
  (h : Again base base.check.context accepted ctx again)

include hreaches hreaches' h

/-- At a line that fails its examination the second run stops as well, unless it is a universal
    generalization and something was cited upwards. -/
private theorem Unchecked.tail_of_error {e : Failure}
    (hexamine : ctx.examine id = (.error e, ctx')) :
    let tail := ctx.checkLines accepted pending ((n, id) :: rest)
    let tail' := again.checkLines accepted pending ((n, id) :: rest)
    tail'.result = tail.result ∧ tail'.acceptances = tail.acceptances ∨
      tail.result = .ok false ∧ tail.acceptances = [] ∧
        (base.record id).line.reason.rule = "ug" ∧ (∃ n m, base.Climbs n m) ∧
        ∃ more, tail'.acceptances = (id, (base.record id).line) :: more := by
  intro tail tail'
  have hahead := hu.ahead hreaches hreaches' h
  have htail : tail = (ctx'.fail e).after [.examining id (ctx.record id).line] := by
    simp only [tail, checkLines, hexamine]
  have hresult : tail.result = (ctx'.fail e).result := by rw [htail]; rfl
  have hnone : tail.acceptances = [] := by rw [htail, acceptances_fail_after]
  -- the first run leaves no more types than it had here
  have htypes : ∀ b, ctx.types.get? b = again.types.get? b := by
    refine fun b => hahead.first.types_eq hahead.second ⟨hahead.grows.types, fun hb => ?_⟩
    have hleft := h.grows.types hb
    have hkept := types_snd_examine ctx id
    rw [hexamine] at hkept
    rwa [(hreaches.check_of_error hexamine).2, hkept] at hleft
  have hcompare := hahead.examine_error htypes (congrArg Prod.fst hexamine)
  rcases hagain : again.examine id with ⟨e' | _, again'⟩ <;> rw [hagain] at hcompare
  · have htail' : tail' = (again'.fail e').after [.examining id (again.record id).line] := by
      simp only [tail', checkLines, hagain]
    -- both fail, though perhaps with other refusals
    refine .inl ⟨?_, by rw [hnone, htail', acceptances_fail_after]⟩
    rw [hresult, htail']
    rcases hcompare with heq | ⟨-, ⟨r, rfl⟩, hrefusal, -⟩
    · cases heq
      cases e <;> rfl
    · cases e' with
      | refusal r' => rfl
      | fault f => exact absurd rfl (hrefusal f)
  · rcases hcompare with heq | ⟨hrule, ⟨r, rfl⟩, -, m, hm, j, c, hj, hin, hnot⟩
    · cases heq
    · have hrule' : (again.record id).line.reason.rule = "ug" := by
        rw [hahead.second.line, hrule]
      obtain ⟨hsymbols, -⟩ := (exists_examine_ug_iff (hahead.second.lines ▸ hahead.get?)
        (hahead.second.records_length ▸ hahead.lt) hahead.second.housed hrule').mp ⟨again', hagain⟩
      have hadmits : again.Admits id := admits_iff.mpr ⟨⟨again', hagain⟩, hsymbols⟩
      refine .inr ⟨hresult, hnone, hrule, ?_, ?_⟩
      · -- otherwise the cited line was accepted before and has the same in scope
        by_contra! hflat
        refine hnot (h.same hflat ?_ hj hin)
        exact hu.accepted_of_cited hreaches hflat
          (fun hded => absurd (hrule.symm.trans hded) (by decide)) hm hj
      · rw [← hahead.second.line]
        exact hadmits.exists_acceptances_eq accepted pending n rest

/-- At a line that passes its examination and has symbols out of order the second run stops as
    well. -/
private theorem Unchecked.tail_of_symbols (hexamine : ctx.examine id = (.ok (), ctx₁)) {r : Refusal}
    (hsymbols : ctx₁.useSymbols (ctx.record id).line.formula = (.error r, ctx₂)) :
    let tail := ctx.checkLines accepted pending ((n, id) :: rest)
    let tail' := again.checkLines accepted pending ((n, id) :: rest)
    tail'.result = tail.result ∧ tail'.acceptances = tail.acceptances := by
  intro tail tail'
  have hahead := hu.ahead hreaches hreaches' h
  have hout : (ctx.record id).line.formula.symbols = .error r ∧ ctx₂ = ctx₁ := by
    unfold useSymbols at hsymbols
    split at hsymbols <;> cases hsymbols
    exact ⟨by assumption, rfl⟩
  -- nothing has come into use since
  have hleft : base.check.context = ctx₁ := by
    obtain ⟨notices, hcheck⟩ := hreaches.exists_check_eq
    simp only [checkLines, hexamine, hsymbols] at hcheck
    rw [hcheck, ← hout.2]
    rfl
  have hfresh : ∀ w, base.Chooses n w → w ∉ again.constants := by
    intro w hw hin
    have hused := h.grows.constants hin
    rw [hleft, constants_examine hexamine] at hused
    exact not_mem_constants_of_examine (hahead.first.lines ▸ hahead.get?) hexamine
      (hahead.first.chooses ▸ hw) hused
  obtain ⟨again₁, hexamine'⟩ := hahead.exists_examine hfresh hexamine
  have hsymbols' : again₁.useSymbols (again.record id).line.formula = (.error r, again₁) := by
    rw [useSymbols, hahead.line_eq, hout.1]
  simp only [tail, tail', checkLines, hexamine, hsymbols, hexamine', hsymbols',
    acceptances_fail_after, and_true]
  rfl

/-- At a line after which a block has a line that cannot be examined the second run stops as well,
    unless the line chooses a variable that has come into use. -/
private theorem Unchecked.tail_of_compile
    (hfresh : ∀ w, base.Chooses n w → w ∉ base.check.context.constants)
    (hexamine : ctx.examine id = (.ok (), ctx₁))
    (hsymbols : ctx₁.useSymbols (ctx.record id).line.formula = (.ok (), ctx₂)) {f : Fault}
    (hcompile : ctx₂.compileReady (n :: accepted) pending = (.error f, ctx₃)) :
    let tail := ctx.checkLines accepted pending ((n, id) :: rest)
    let tail' := again.checkLines accepted pending ((n, id) :: rest)
    tail'.result = tail.result ∧ tail'.acceptances = tail.acceptances := by
  intro tail tail'
  have hahead := hu.ahead hreaches hreaches' h
  obtain ⟨again₁, hexamine'⟩ := hahead.exists_examine
    (fun w hw hin => hfresh w hw (h.grows.constants hin)) hexamine
  have hleft : base.check.context = ctx₃ := by
    obtain ⟨notices, hcheck⟩ := hreaches.exists_check_eq
    simp only [checkLines, hexamine, hsymbols, hcompile] at hcheck
    rw [hcheck]
    rfl
  obtain ⟨types, hctx₃⟩ := compileReady_context ctx₂ (n :: accepted) pending
  obtain ⟨s, hs, rfl⟩ := useSymbols_ok hsymbols
  simp only [hcompile] at hctx₃
  have hsymbols' : again₁.useSymbols (again.record id).line.formula =
      (.ok (), again₁.addConstants s.unbound) := by
    rw [useSymbols, hahead.line_eq, hs]
  rcases hcompile' : (again₁.addConstants s.unbound).compileReady (n :: accepted) pending with
    ⟨f' | pending', again₃⟩
  · simp only [tail, tail', checkLines, hexamine, hsymbols, hcompile, hexamine', hsymbols',
      hcompile', Run.acceptances_after_accepted, acceptances_fail]
    rw [fault_of_compileReady hcompile, fault_of_compileReady hcompile', hahead.line_eq]
    exact ⟨rfl, rfl⟩
  · -- the line that had not been examined has been examined in neither run
    have hready : ∃ pending' ctx',
        (ctx₁.addConstants s.unbound).compileReady (n :: accepted) pending =
          (.ok pending', ctx') := by
      refine exists_compileReady_of_argument ?_ (fun {j} hj => ?_) ⟨_, _, hcompile'⟩
      · exact (hahead.frame_examine hexamine hexamine').symm.blocks
      · rcases (isSome_argument_examine (hahead.second.records_length ▸ hahead.lt) hexamine').mp hj
          with rfl | hj
        · exact (isSome_argument_examine (hahead.first.records_length ▸ hahead.lt) hexamine).mpr
            (.inl rfl)
        · have hknown := h.grows.argument hj
          rw [hleft, hctx₃] at hknown
          exact hknown
    obtain ⟨pending', ctx', hok⟩ := hready
    rw [hcompile] at hok
    cases hok

end

/-! ## Both checks as a whole -/

/-- What has been accepted at a moment is told to be accepted. -/
private theorem Unchecked.exists_acceptance (h : Reaches base accepted pending rest ctx) {m : Int}
    (hm : m ∈ accepted) : ∃ e ∈ base.check.acceptances, e.2.number = m := by
  obtain ⟨done, hsorted, rfl, htold⟩ := h.exists_acceptances_eq
  obtain ⟨⟨k, j⟩, hmem, rfl⟩ := List.mem_map.mp (List.mem_reverse.mp hm)
  have hentry : (k, j) ∈ base.lines.entries := by
    rw [← (sortedLines_perm base).mem_iff, hsorted]
    exact List.mem_append_left _ hmem
  refine ⟨(j, (base.record j).line), ?_, hu.number_eq hentry⟩
  rw [htold]
  exact List.mem_append_left _ (List.mem_map_of_mem hmem)

omit hu

/-- The check of `base` accepts the line with the number `n`, which chooses `w`, and leaves `w` in
    use. -/
def Spends (base : Context) (n : Int) (w : Variable) : Prop :=
  (∃ e ∈ base.check.acceptances, e.2.number = n) ∧ base.Chooses n w ∧
    w ∈ base.check.context.constants

include hu

/-- The second run refuses a choice that is spent, if it gets that far. -/
private theorem Unchecked.result_of_spends {w : Variable} (h : base.Spends n w) :
    base.check.context.check.result = .ok false := by
  obtain ⟨⟨⟨id, l⟩, hmem, hnumber⟩, hw, hin⟩ := h
  obtain ⟨accepted, pending, m, rest, ctx, hreaches, hadmits, rfl⟩ :=
    mem_acceptances_check_iff.mp hmem
  -- the accepted line is the one with the number
  have hm : m = n := by
    rw [← hnumber, hreaches.frame.line]
    exact (hu.number_eq (Table.mem_of_get? (hu.get?_of_reaches hreaches))).symm
  subst hm
  rcases hu.reaches_again hreaches with ⟨again, hreaches', hagain, -⟩ | ⟨-, hresult⟩
  · exact hu.result_of_spent hreaches hreaches' hagain (admits_iff.mp hadmits).1 hw hin
  · exact hresult

/-- From a moment that both runs reach, the checks compare as the rests of the runs do. -/
private theorem Unchecked.compare_tails (hreaches : Reaches base accepted pending rest ctx)
    (hreaches' : Reaches base.check.context accepted pending rest again) :
    base.check.result = (ctx.checkLines accepted pending rest).result ∧
      base.check.context.check.result = (again.checkLines accepted pending rest).result ∧
      ∃ before, base.check.acceptances =
          before ++ (ctx.checkLines accepted pending rest).acceptances ∧
        base.check.context.check.acceptances =
          before ++ (again.checkLines accepted pending rest).acceptances := by
  have hleft := hu.faithful_check
  obtain ⟨notices, hcheck⟩ := hreaches.exists_check_eq
  obtain ⟨notices', hcheck'⟩ := hreaches'.exists_check_eq
  obtain ⟨done, hsorted, -, htold⟩ := hreaches.exists_acceptances_eq
  obtain ⟨done', hsorted', -, htold'⟩ := hreaches'.exists_acceptances_eq
  -- both runs have accepted the same lines so far
  rw [hleft.sortedLines, hsorted] at hsorted'
  have hdone := List.append_cancel_right hsorted'
  have hsame : base.check.context.told done = base.told done := by
    simp only [told, hleft.line]
  refine ⟨by rw [hcheck]; rfl, by rw [hcheck']; rfl, base.told done, htold, ?_⟩
  rw [htold', ← hdone, hsame]

/-- Where the symbols of the premises are out of order, both checks say so. -/
private theorem Unchecked.again_of_premises {b : BlockId} {r : Refusal} (hmain : base.main = some b)
    (hpremises : base.usePremises (base.sortedLines.map Prod.snd) = (.error r, ctx)) :
    let first := base.check
    let second := first.context.check
    second.result = first.result ∧ second.acceptances = first.acceptances := by
  intro first second
  have hleft := hu.faithful_check
  have hfirst : first = ctx.fail (.refusal r) := by simp only [first, check, hmain, hpremises]
  have hmain' : first.context.main = some b := hleft.main.trans hmain
  -- the premises are looked through alike, though more may be in use by now
  have hpremises' : first.context.usePremises (first.context.sortedLines.map Prod.snd) =
      (.error r, (first.context.usePremises (first.context.sortedLines.map Prod.snd)).2) := by
    refine Prod.ext ?_ rfl
    rw [hleft.sortedLines, hleft.toFrame.fst_usePremises, hpremises]
  have hsecond : second.result = .ok false ∧ second.acceptances = [] := by
    simp only [second, check, hmain']
    rw [hpremises']
    exact ⟨rfl, acceptances_fail _ _⟩
  rw [hsecond.1, hsecond.2, hfirst]
  exact ⟨rfl, (acceptances_fail ctx _).symm⟩

/-- From the last moment of the first run, where no choice is spent, the second run ends in the same
    way or goes on behind a universal generalization. -/
private theorem Unchecked.tails_of_last (hfresh : ∀ n w, ¬ base.Spends n w)
    (hreaches : Reaches base accepted pending rest ctx)
    (hlast : ∀ n id rest', rest = (n, id) :: rest' → ¬ ctx.Proceeds accepted pending n id)
    (hreaches' : Reaches base.check.context accepted pending rest again)
    (h : Again base base.check.context accepted ctx again) :
    let tail := ctx.checkLines accepted pending rest
    let tail' := again.checkLines accepted pending rest
    tail'.result = tail.result ∧ tail'.acceptances = tail.acceptances ∨
      tail.result = .ok false ∧ tail.acceptances = [] ∧ (∃ n m, base.Climbs n m) ∧
        ∃ id l more, l.reason.rule = "ug" ∧ tail'.acceptances = (id, l) :: more := by
  intro tail tail'
  cases rest with
  | nil => exact .inl ⟨rfl, rfl⟩
  | cons e rest =>
    obtain ⟨n, id⟩ := e
    rcases hexamine : ctx.examine id with ⟨e | _, ctx₁⟩
    · rcases hu.tail_of_error hreaches hreaches' h hexamine with
        hsame | ⟨hfalse, hnone, hrule, hclimbs, more, hmore⟩
      · exact .inl hsame
      · exact .inr ⟨hfalse, hnone, hclimbs, id, _, more, hrule, hmore⟩
    rcases hsymbols : ctx₁.useSymbols (ctx.record id).line.formula with ⟨r | _, ctx₂⟩
    · exact .inl (hu.tail_of_symbols hreaches hreaches' h hexamine hsymbols)
    rcases hcompile : ctx₂.compileReady (n :: accepted) pending with ⟨f | pending', ctx₃⟩
    · refine .inl (hu.tail_of_compile hreaches hreaches' h (fun w hw hin => ?_) hexamine hsymbols
        hcompile)
      -- the line is told to be accepted before the run breaks off
      refine hfresh n w ⟨⟨(id, (base.record id).line), ?_, ?_⟩, hw, hin⟩
      · exact mem_acceptances_check_iff.mpr ⟨accepted, pending, n, rest, ctx, hreaches,
          ⟨ctx₁, ctx₂, hexamine, hsymbols⟩, (hreaches.frame.line id).symm⟩
      · exact hu.number_eq (Table.mem_of_get? (hu.get?_of_reaches hreaches))
    · exact absurd ⟨pending', ctx₃, ctx₁, ctx₂, hexamine, hsymbols, hcompile⟩ (hlast n id rest rfl)

/-- Where no choice is spent, the second check repeats the first or goes on behind a universal
    generalization at which the first has stopped. -/
private theorem Unchecked.follows_of_not_spends (hfresh : ∀ n w, ¬ base.Spends n w) :
    let first := base.check
    let second := first.context.check
    second.result = first.result ∧ second.acceptances = first.acceptances ∨
      first.result = .ok false ∧ (∃ n m, base.Climbs n m) ∧
        ∃ id l more, l.reason.rule = "ug" ∧
          second.acceptances = first.acceptances ++ (id, l) :: more := by
  intro first second
  cases hmain : base.main with
  | none =>
    -- there is nothing to check
    have hsame : first.context = base := by simp only [first, check, hmain]
    left
    simp only [second, hsame]
    exact ⟨rfl, rfl⟩
  | some b =>
    rcases hpremises : base.usePremises (base.sortedLines.map Prod.snd) with ⟨r | _, ctx⟩
    · exact .inl (hu.again_of_premises hmain hpremises)
    · obtain ⟨accepted, pending, rest, ctx, hreaches, hlast⟩ :=
        exists_last_moment (hmain ▸ rfl) hpremises
      rcases hu.reaches_again hreaches with ⟨again, hreaches', hagain, -⟩ | ⟨⟨n, hn, w, hspent⟩, -⟩
      · -- the checks compare as the rests of the runs do
        obtain ⟨hresult, hresult', before, hbefore, hbefore'⟩ :=
          hu.compare_tails hreaches hreaches'
        simp only [first, second, hresult, hresult', hbefore, hbefore']
        rcases hu.tails_of_last hfresh hreaches hlast hreaches' hagain with
          ⟨hsame, hsame'⟩ | ⟨hfalse, hnone, hclimbs, id, l, more, hrule, hmore⟩
        · exact .inl ⟨hsame, by rw [hsame']⟩
        · exact .inr ⟨hfalse, hclimbs, id, l, more, hrule, by rw [hnone, hmore, List.append_nil]⟩
      · exact absurd ⟨hu.exists_acceptance hreaches hn, hspent⟩ (hfresh n w)

end

/-- What a second check of a context that was made by adding blocks answers.  It says no where the
    first has accepted a choice of a variable that has come into use.  Otherwise it repeats the
    first, unless the first has stopped with a refusal at a universal generalization that the second
    accepts.  Where no citation climbs, the answers are the same if the first is no or no choice is
    spent, and otherwise not. -/
theorem check_again (base : Context) (hbuilt : Built base) :
    let first := base.check
    let second := first.context.check
    ((∃ n w, base.Spends n w) → second.result = .ok false) ∧
      ((∀ n w, ¬ base.Spends n w) →
        second.result = first.result ∧ second.acceptances = first.acceptances ∨
          first.result = .ok false ∧ ∃ id l more, l.reason.rule = "ug" ∧
            second.acceptances = first.acceptances ++ (id, l) :: more) ∧
      ((∀ n m, ¬ base.Climbs n m) →
        (second.result = first.result ↔ first.result = .ok false ∨ ∀ n w, ¬ base.Spends n w)) := by
  intro first second
  have hu := hbuilt.gathered.toUnchecked
  have hspent : (∃ n w, base.Spends n w) → second.result = .ok false :=
    fun ⟨_, _, h⟩ => hu.result_of_spends h
  refine ⟨hspent, fun hfresh => ?_, fun hflat => ⟨fun hsame => ?_, fun hor => ?_⟩⟩
  · exact (hu.follows_of_not_spends hfresh).imp_right fun ⟨hfalse, _, hmore⟩ => ⟨hfalse, hmore⟩
  · by_cases h : ∃ n w, base.Spends n w
    · exact .inl (hsame ▸ hspent h)
    · exact .inr fun n w hnw => h ⟨n, w, hnw⟩
  · by_cases h : ∃ n w, base.Spends n w
    · rcases hor with hfalse | hfresh
      · rw [hfalse, hspent h]
      · -- no choice is spent, and one is
        obtain ⟨n, w, hnw⟩ := h
        exact absurd hnw (hfresh n w)
    · rcases hu.follows_of_not_spends fun n w hnw => h ⟨n, w, hnw⟩ with
        hsame | ⟨-, ⟨n, m, hclimbs⟩, -⟩
      · exact hsame.1
      · exact absurd hclimbs (hflat n m)

/-- A choice is spent by the check that accepts it, and the second check says no. -/
theorem check_again_spent_choice :
    let base := ({} : Context).addBlocks [[
      ⟨1, .ex (.named "x") (.pred "P" [.named "x"]), ⟨"prem", []⟩⟩,
      ⟨2, .pred "P" [.named "c"], ⟨"ei", [1]⟩⟩,
      ⟨3, .disj (.pred "P" [.named "c"]) (.atom "A"), ⟨"add", [2]⟩⟩]]
    (Built base ∧ base.check.result = .ok true) ∧ base.Spends 2 (.named "c") ∧
      base.check.context.check.result = .ok false := by
  intro base
  have hbuilt : Built base := built_addBlocks {} _
  have hlines : base.line? 2 = some ⟨2, .pred "P" [.named "c"], ⟨"ei", [1]⟩⟩ ∧
      base.line? 1 = some ⟨1, .ex (.named "x") (.pred "P" [.named "x"]), ⟨"prem", []⟩⟩ := by
    clear hbuilt
    decide +kernel +revert
  have hchecked : base.check.result = .ok true ∧
      (∃ e ∈ base.check.acceptances, e.2.number = 2) ∧
      .named "c" ∈ base.check.context.constants := by
    clear hbuilt hlines
    decide +kernel +revert
  have hchooses : base.Chooses 2 (.named "c") :=
    ⟨_, _, ⟨hlines.1, 1, rfl, hlines.2⟩, .named "x", _, rfl, by decide +kernel⟩
  have hspends : base.Spends 2 (.named "c") := ⟨hchecked.2.1, hchooses, hchecked.2.2⟩
  exact ⟨⟨hbuilt, hchecked.1⟩, hspends,
    (check_again base hbuilt).1 ⟨2, .named "c", hspends⟩⟩

/-- A second check may say no after a yes, and yes after a no. -/
theorem second_answer_differs :
    let chosen := "1. exists x, P(x) prem; 2. P(c) ei 1;"
    let climbing := "1. P(a) \\/ P(a) or_self 2; 2. P(a) ui 3; 3. forall x, P(x) prem; " ++
      "4. forall x, P(x) \\/ P(x) ug 1;"
    let answers (text : String) : Option (Except Fault Bool × Except Fault Bool) :=
      match ({} : Context).addText text with
      | (none, ctx) => some (ctx.check.result, ctx.check.context.check.result)
      | (some _, _) => none
    answers chosen = some (.ok true, .ok false) ∧
      answers climbing = some (.ok false, .ok true) := by
  decide +kernel

end Sequitur.Context
