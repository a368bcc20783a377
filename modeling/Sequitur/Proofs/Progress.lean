import Sequitur.Proof.Check
import Sequitur.Proofs.Assembly
import Sequitur.Proofs.Examination
import Sequitur.Proofs.Script

/-!
# What a check establishes

A run that answers yes has accepted every line, one after another (`Accepts`).  What is known on the
way is kept by `Progress`, which speaks about the context before the run: types are given to blocks
whose lines have all been accepted, and a type is what the lines of the block say.

So an accepted line has a `Warrant` that can be told without running anything: its reason names a
rule which yields its formula from the formulas of the cited lines, or it deduces from a block all
of whose numbers are lower.

## Key results

- `check_eq_true`: a run answers yes when it accepts every line
- `Accepts.progress`: what a run establishes, line by line
- `Assembled.warrant_of_check`: every line of a context that passes its check has a warrant
-/

namespace Sequitur

namespace Context

/-! ## Runs that accept -/

/-- The lines `rest` are accepted one after another, from the context `ctx` to the context
    `ctx'`. -/
inductive Accepts : Context → List Int → List (List Int × BlockId) → List (Int × LineId) →
    Context → Prop
  | done {ctx accepted pending} : Accepts ctx accepted pending [] ctx
  | step {ctx ctx₁ ctx₂ ctx₃ ctx' accepted pending pending' n id rest}
      (examine : ctx.examine id = (.ok (), ctx₁))
      (symbols : ctx₁.useSymbols (ctx.record id).line.formula = (.ok (), ctx₂))
      (compile : ctx₂.compileReady (n :: accepted) pending = (.ok pending', ctx₃))
      (rest_accepts : Accepts ctx₃ (n :: accepted) pending' rest ctx') :
      Accepts ctx accepted pending ((n, id) :: rest) ctx'

/-- A run that gives up does not answer yes. -/
private theorem result_fail_ne (ctx : Context) (e : Failure) : (ctx.fail e).result ≠ .ok true := by
  cases e <;> simp [fail]

/-- A run answers yes when it accepts the lines that are left, and it ends with the context they
    lead to. -/
theorem checkLines_eq_true {ctx ctx' : Context} {accepted : List Int}
    {pending : List (List Int × BlockId)} {rest : List (Int × LineId)} :
    (ctx.checkLines accepted pending rest).result = .ok true ∧
        (ctx.checkLines accepted pending rest).context = ctx' ↔
      Accepts ctx accepted pending rest ctx' := by
  constructor
  · rintro ⟨hresult, rfl⟩
    -- each step that does not succeed ends the run with another answer
    induction rest generalizing ctx accepted pending with
    | nil => exact .done
    | cons e rest ih =>
      obtain ⟨n, id⟩ := e
      simp only [checkLines] at hresult ⊢
      split at hresult
      · exact absurd hresult (result_fail_ne _ _)
      · rename_i ctx₁ hexamine
        split at hresult
        · exact absurd hresult (result_fail_ne _ _)
        · rename_i ctx₂ hsymbols
          split at hresult
          · exact absurd hresult (result_fail_ne _ _)
          · rename_i pending' ctx₃ hcompile
            exact .step hexamine hsymbols hcompile (ih hresult)
  · intro h
    induction h with
    | done => exact ⟨rfl, rfl⟩
    | step hexamine hsymbols hcompile _ ih =>
      simpa only [checkLines, hexamine, hsymbols, hcompile, Run.after] using ih

/-- A check answers yes when there is something to check, the symbols of the premises are in order
    and every line is accepted. -/
theorem check_eq_true {ctx ctx' : Context} :
    ctx.check.result = .ok true ∧ ctx.check.context = ctx' ↔
      ctx.main.isSome ∧ ∃ ctx₀, ctx.usePremises (ctx.sortedLines.map Prod.snd) = (.ok (), ctx₀) ∧
        Accepts ctx₀ [] ctx₀.registered.entries ctx.sortedLines ctx' := by
  unfold check
  cases hmain : ctx.main with
  | none => simp
  | some b =>
    simp only [Option.isSome_some, true_and]
    split
    · rename_i r ctx₀ hpremises
      simp [result_fail_ne, hpremises]
    · rename_i ctx₀ hpremises
      rw [checkLines_eq_true, hpremises]
      simp

/-! ## Types of blocks -/

/-- The type of a block, told from its lines. -/
def blockType (ctx : Context) (b : BlockId) : BlockType :=
  ⟨(((ctx.blockLines b).filter Line.assumes).map Line.formula).eraseDups,
    ((ctx.blockLines b).map Line.formula).eraseDups⟩

/-- The hypotheses of a block are what its lines assume. -/
theorem mem_hypotheses_blockType {ctx : Context} {b : BlockId} {f : Formula} :
    f ∈ (ctx.blockType b).hypotheses ↔ ∃ l ∈ ctx.blockLines b, l.assumes ∧ l.formula = f := by
  simp only [blockType, List.mem_eraseDups, List.mem_map, List.mem_filter, and_assoc]

/-- The results of a block are the formulas of its lines. -/
theorem mem_results_blockType {ctx : Context} {b : BlockId} {f : Formula} :
    f ∈ (ctx.blockType b).results ↔ ∃ l ∈ ctx.blockLines b, l.formula = f := by
  simp only [blockType, List.mem_eraseDups, List.mem_map]

variable {base ctx ctx' : Context} {accepted : List Int}

/-- Blocks have the lines that they had before. -/
theorem Frame.blockLines (h : Frame base ctx) : ctx.blockLines = base.blockLines := by
  funext b
  simp only [Context.blockLines, block, h.blocks, h.line]

/-- A block that gets a type has been examined, and its type is what its lines say, as long as the
    arguments of lines tell which are assumed. -/
theorem compile_eq_of_assumes (hframe : Frame base ctx)
    (hassumes : ∀ {id arg}, (ctx.record id).argument = some arg →
      arg.isAssumption = (base.record id).line.assumes) {b : BlockId} {type : BlockType}
    (hc : ctx.compile b = (.ok type, ctx')) :
    type = base.blockType b ∧ ctx' = { ctx with types := ctx.types.put b type } := by
  unfold Context.compile at hc
  simp only at hc
  split at hc
  · rename_i hexamined
    cases hc
    refine ⟨?_, rfl⟩
    rw [List.all_eq_true] at hexamined
    -- the argument of a line tells whether it is assumed, and so does its reason
    have hassumed : ∀ r ∈ (ctx.block b).members.values.map ctx.record,
        r.argument.any Argument.isAssumption = r.line.assumes := by
      intro r hr
      obtain ⟨arg, harg⟩ := Option.isSome_iff_exists.mp (hexamined r hr)
      obtain ⟨id, -, rfl⟩ := List.mem_map.mp hr
      rw [harg, Option.any_some, hassumes harg, hframe.line]
    rw [List.filter_congr hassumed, blockType, ← hframe.blockLines, Context.blockLines,
      List.filter_map, List.filter_map, List.map_map, List.map_map, List.map_map, List.map_map]
    rfl
  · cases hc

/-- What is known in the middle of a run that started from `base`. -/
structure Progress (base : Context) (accepted : List Int) (ctx : Context) : Prop
    extends Frame base ctx where
  /-- The lines accepted so far have been examined. -/
  examined : ∀ {n id}, n ∈ accepted → base.lines.get? n = some id →
    (ctx.record id).argument.isSome
  /-- Assumptions are told from their reasons. -/
  assumes : ∀ {id arg}, (ctx.record id).argument = some arg →
    arg.isAssumption = (base.record id).line.assumes
  /-- A type is that of a block whose numbers have all been accepted. -/
  types : ∀ {b type}, ctx.types.get? b = some type → type = base.blockType b ∧
    ∃ key, (key, b) ∈ base.registered.entries ∧ ∀ n ∈ key, n ∈ accepted

/-- A block gets the type that is told from its lines. -/
theorem Progress.compile (h : Progress base accepted ctx) {b : BlockId} {type : BlockType}
    (hc : ctx.compile b = (.ok type, ctx')) :
    type = base.blockType b ∧ ctx' = { ctx with types := ctx.types.put b type } :=
  compile_eq_of_assumes h.toFrame h.assumes hc

/-- A change of the types by what is known keeps the progress. -/
theorem Progress.put (h : Progress base accepted ctx) {key : List Int} {b : BlockId}
    (hkey : (key, b) ∈ base.registered.entries) (hall : ∀ n ∈ key, n ∈ accepted) :
    Progress base accepted { ctx with types := ctx.types.put b (base.blockType b) } where
  toFrame := h.toFrame.trans (frame_types ctx _)
  examined := h.examined
  assumes := h.assumes
  types := by
    intro b' type htype
    -- the type that was put is that of a complete block; the others were known
    by_cases hb : b' = b
    · subst hb
      rw [Table.get?_put_self, Option.some_inj] at htype
      exact ⟨htype.symm, key, hkey, hall⟩
    · rw [Table.get?_put_of_ne _ _ hb] at htype
      exact h.types htype

/-- Finding the types of complete blocks keeps the progress. -/
theorem Progress.compileReady {pending pending' : List (List Int × BlockId)}
    (h : Progress base accepted ctx) (hpending : pending ⊆ base.registered.entries)
    (hc : ctx.compileReady accepted pending = (.ok pending', ctx')) :
    Progress base accepted ctx' ∧ pending' ⊆ pending := by
  induction pending generalizing ctx pending' with
  | nil =>
    cases hc
    exact ⟨h, List.Subset.refl _⟩
  | cons e pending ih =>
    obtain ⟨key, b⟩ := e
    rw [List.cons_subset] at hpending
    simp only [Context.compileReady] at hc
    split at hc
    · -- all numbers of the block have been accepted, so that it gets its type
      rename_i hall
      split at hc
      · cases hc
      · rename_i type ctx₁ hcompile
        obtain ⟨rfl, rfl⟩ := h.compile hcompile
        have hput := h.put hpending.1 (by simpa using hall)
        obtain ⟨hprogress, hsub⟩ := ih hput hpending.2 hc
        exact ⟨hprogress, List.Subset.trans hsub (List.subset_cons_self _ _)⟩
    · -- the block has to wait
      split at hc
      · cases hc
      · rename_i rest ctx₁ hrest
        cases hc
        obtain ⟨hprogress, hsub⟩ := ih h hpending.2 hrest
        -- it is still among those that wait
        exact ⟨hprogress, List.cons_subset_cons _ hsub⟩

/-! ## Symbols in use -/

/-- Taking variables to be in use is quiet. -/
theorem quiet_useSymbols (ctx : Context) (f : Formula) : Quiet ctx (ctx.useSymbols f).2 := by
  unfold useSymbols
  split
  · exact .refl ctx
  · exact quiet_addConstants ctx _

/-- So is looking through the premises. -/
theorem quiet_usePremises (ctx : Context) (ids : List LineId) :
    Quiet ctx (ctx.usePremises ids).2 := by
  induction ids generalizing ctx with
  | nil => exact .refl ctx
  | cons id ids ih =>
    have hsymbols := quiet_useSymbols ctx (ctx.record id).line.formula
    simp only [usePremises]
    split
    · split <;> rename_i hused <;> rw [hused] at hsymbols
      · exact hsymbols
      · exact hsymbols.trans (ih _)
    · exact ih ctx

/-- Lines that are no premises do not matter in advance. -/
private theorem usePremises_of_none {ids : List LineId}
    (h : ∀ id ∈ ids, (ctx.record id).line.isPremise = false) :
    ctx.usePremises ids = (.ok (), ctx) := by
  induction ids with
  | nil => rfl
  | cons id ids ih =>
    rw [List.forall_mem_cons] at h
    simp only [usePremises, h.1]
    exact ih h.2

/-- What is quiet keeps the progress. -/
theorem Progress.quiet (h : Progress base accepted ctx) (hq : Quiet ctx ctx') :
    Progress base accepted ctx' where
  toFrame := h.toFrame.trans hq.toFrame
  examined hn hid := hq.argument _ ▸ h.examined hn hid
  assumes ha := h.assumes (hq.argument _ ▸ ha)
  types ht := h.types (hq.types ▸ ht)

/-! ## One line -/

/-- What a line that is accepted has to show for itself, in terms of the context before the run. -/
inductive Warrant (ctx : Context) (n : Int) (l : Line) : Prop
  /-- A rule yields the formula of the line from those of the cited lines; the quantifier rules
      look at more than that. -/
  | rule {ids : List LineId} {r : Rule} {arg : Argument} (not_ded : l.reason.rule ≠ deductionName)
      (cites : ctx.cite l.reason.citations = .ok ids) (named : Rule.ofName? l.reason.rule = some r)
      (applied : r.argument? (ids.map ctx.cited) = some arg)
      (yields : arg.isQuantifier = false → ∃ σ σ', arg.typecheck σ l.formula = (.ok true, σ'))
  /-- A block with one hypothesis yields the formula, and the numbers of its lines are lower. -/
  | deduction {b : BlockId} {hyp : Formula} (ded : l.reason.rule = deductionName)
      (block : ctx.registered.get? (sortNumbers l.reason.citations) = some b)
      (lower : ∀ m ∈ l.reason.citations, m < n)
      (one : (ctx.blockType b).hypotheses = [hyp])
      (yields : Argument.checkDeduction hyp (ctx.blockType b).results l.formula = .ok true)

/-- A line that is accepted after only lower numbers were has a warrant. -/
theorem Progress.warrant (h : Progress base accepted ctx) (ha : base.Assembled) {n : Int}
    {id : LineId} {arg : Argument} (he : Examined ctx id arg ctx') (hlow : ∀ m ∈ accepted, m < n) :
    Warrant base n (base.record id).line := by
  obtain ⟨vars, hinterpret⟩ := he.interpreted
  have hyields := he.yields
  rw [h.line] at hinterpret hyields
  obtain ⟨ids, hids, ⟨hrule, harg⟩ | ⟨hrule, rule, hname, harg⟩⟩ := interpret_ok hinterpret
  · obtain ⟨b, type, hyp, hb, htype, hhyp, rfl⟩ := deduction_ok harg
    obtain ⟨rfl, key, hkey, hall⟩ := h.types htype
    rw [h.registered] at hb
    -- the block is registered under one key only
    have hcited : key = sortNumbers (base.block b).members.keys := (ha.key_eq hkey).2
    have hsorted := (ha.key_eq (Table.mem_of_get? hb)).2
    rw [← hcited] at hsorted
    refine .deduction hrule hb (fun m hm => hlow m (hall m ?_)) hhyp ?_
    · rw [← hsorted]
      exact (sortBy_perm _ _).mem_iff.mpr hm
    · obtain ⟨σ, σ', hcheck⟩ := hyields rfl
      exact mapError_eq_ok.mp (congrArg Prod.fst hcheck)
  · rw [h.toFrame.cite] at hids
    rw [h.toFrame.cited] at harg
    exact .rule hrule hids hname harg hyields

/-- Accepting a line is progress. -/
theorem Progress.examine (h : Progress base accepted ctx) {n : Int} {id : LineId} {arg : Argument}
    (hget : base.lines.get? n = some id) (hlt : id < base.records.length)
    (he : Examined ctx id arg ctx') : Progress base (n :: accepted) ctx' where
  toFrame := h.toFrame.trans he.toFrame
  examined := by
    intro m j hm hj
    rw [he.argument]
    split
    · rfl
    · rename_i hother
      rcases List.mem_cons.mp hm with rfl | hm
      · -- the number that was just accepted stands for the line that was examined
        rw [hget, Option.some_inj] at hj
        exact absurd ⟨hj.symm, h.records_length ▸ hlt⟩ hother
      · exact h.examined hm hj
  assumes := by
    intro j arg' hj
    rw [he.argument] at hj
    split at hj
    · rename_i hid
      cases hj
      obtain ⟨vars, hinterpret⟩ := he.interpreted
      rw [isAssumption_of_interpret hinterpret, h.line, hid.1]
    · exact h.assumes hj
  types := by
    intro b type htype
    rw [he.types] at htype
    obtain ⟨hstatic, key, hkey, hall⟩ := h.types htype
    exact ⟨hstatic, key, hkey, fun m hm => List.mem_cons_of_mem _ (hall m hm)⟩

/-! ## All lines -/

/-- A run over lines of increasing numbers makes progress up to its end, and each line that it
    accepts has a warrant. -/
theorem Accepts.progress {pending : List (List Int × BlockId)} {rest : List (Int × LineId)}
    (h : Accepts ctx accepted pending rest ctx') (ha : base.Assembled)
    (hp : Progress base accepted ctx) (hpending : pending ⊆ base.registered.entries)
    (hrest : rest ⊆ base.lines.entries) (hsorted : rest.Pairwise fun d e => d.1 < e.1)
    (hlow : ∀ m ∈ accepted, ∀ e ∈ rest, m < e.1) :
    (∃ accepted', Progress base accepted' ctx') ∧
      ∀ e ∈ rest, Warrant base e.1 (base.record e.2).line := by
  -- the invariant is `Progress` with the order of the numbers: all accepted are below all others
  induction h with
  | done => exact ⟨⟨_, hp⟩, by simp⟩
  | @step ctx ctx₁ ctx₂ ctx₃ ctx' accepted pending pending' n id rest hexamine hsymbols hcompile _
      ih =>
    rw [List.cons_subset] at hrest
    rw [List.pairwise_cons] at hsorted
    obtain ⟨arg, he⟩ := examined_of_ok hexamine
    have hwarrant := hp.warrant ha (n := n) he fun m hm => hlow m hm _ List.mem_cons_self
    have hp₁ := hp.examine (Table.get?_of_mem ha.lines_nodup hrest.1) (ha.line_lt hrest.1) he
    have hquiet := quiet_useSymbols ctx₁ (ctx.record id).line.formula
    rw [hsymbols] at hquiet
    obtain ⟨hp₃, hsub⟩ := (hp₁.quiet hquiet).compileReady hpending hcompile
    -- the number that was accepted now is below all that are left, as they come in order
    have hlow₃ : ∀ m ∈ n :: accepted, ∀ e ∈ rest, m < e.1 := by
      intro m hm e he
      rcases List.mem_cons.mp hm with rfl | hm
      · exact hsorted.1 e he
      · exact hlow m hm e (List.mem_cons_of_mem _ he)
    obtain ⟨hfinal, hwarrants⟩ := ih hp₃ (List.Subset.trans hsub hpending) hrest.2 hsorted.2 hlow₃
    refine ⟨hfinal, fun e he => ?_⟩
    rcases List.mem_cons.mp he with rfl | he
    · exact hwarrant
    · exact hwarrants e he

/-! ## Runs that go through -/

/-- No line of a block is hidden by another line with its number. -/
def Current (ctx : Context) : Prop :=
  ∀ b < ctx.blocks.length, (ctx.block b).members.entries ⊆ ctx.lines.entries

/-- A block whose numbers have all been accepted can be given its type. -/
private theorem Progress.exists_compile (h : Progress base accepted ctx) (ha : base.Assembled)
    (hcurrent : base.Current) {key : List Int} {b : BlockId}
    (hkey : (key, b) ∈ base.registered.entries) (hall : ∀ n ∈ key, n ∈ accepted) :
    ∃ type ctx', ctx.compile b = (.ok type, ctx') := by
  obtain ⟨hlt, hsorted⟩ := ha.key_eq hkey
  have hexamined :
      ((ctx.block b).members.values.map ctx.record).all fun r => r.argument.isSome := by
    rw [block, h.blocks, ← block, List.all_map, List.all_eq_true]
    intro id hid
    obtain ⟨⟨n, _⟩, hmem, rfl⟩ := List.mem_map.mp hid
    -- a line of the block is what its number stands for, so accepting the number examined it
    have hn : n ∈ key := by
      rw [hsorted]
      exact (sortBy_perm _ _).mem_iff.mpr (List.mem_map_of_mem hmem)
    exact h.examined (hall n hn) (Table.get?_of_mem ha.lines_nodup (hcurrent b hlt hmem))
  exact ⟨_, _, if_pos hexamined⟩

/-- All blocks that are complete can be given their types. -/
private theorem Progress.exists_compileReady (h : Progress base accepted ctx) (ha : base.Assembled)
    (hcurrent : base.Current) {pending : List (List Int × BlockId)}
    (hpending : pending ⊆ base.registered.entries) :
    ∃ pending' ctx', ctx.compileReady accepted pending = (.ok pending', ctx') := by
  induction pending generalizing ctx with
  | nil => exact ⟨[], ctx, rfl⟩
  | cons e pending ih =>
    obtain ⟨key, b⟩ := e
    rw [List.cons_subset] at hpending
    simp only [Context.compileReady]
    split
    · rename_i hall
      have hkey : ∀ n ∈ key, n ∈ accepted := by simpa using hall
      -- all its lines were accepted, so each of them has an argument
      obtain ⟨type, ctx₁, hcompile⟩ := h.exists_compile ha hcurrent hpending.1 hkey
      obtain ⟨rfl, rfl⟩ := h.compile hcompile
      simp only [hcompile]
      exact ih (h.put hpending.1 hkey) hpending.2
    · obtain ⟨pending', ctx₁, hrest⟩ := ih h hpending.2
      simp only [hrest]
      exact ⟨_, _, rfl⟩

/-- A line that passes its examination and whose symbols are in order is no obstacle to the run. -/
theorem Progress.exists_step (h : Progress base accepted ctx) (ha : base.Assembled)
    (hcurrent : base.Current) {pending : List (List Int × BlockId)}
    (hpending : pending ⊆ base.registered.entries) {n : Int} {id : LineId}
    (hid : base.lines.get? n = some id) {ctx₁ : Context}
    (hexamine : ctx.examine id = (.ok (), ctx₁))
    (hsymbols : ∃ s, (base.record id).line.formula.symbols = .ok s) :
    ∃ ctx₂ pending' ctx₃,
      ctx₁.useSymbols (ctx.record id).line.formula = (.ok (), ctx₂) ∧
      ctx₂.compileReady (n :: accepted) pending = (.ok pending', ctx₃) ∧
      Progress base (n :: accepted) ctx₃ ∧ pending' ⊆ base.registered.entries := by
  obtain ⟨s, hs⟩ := hsymbols
  obtain ⟨arg, he⟩ := examined_of_ok hexamine
  have h₁ := h.examine hid (ha.line_lt (Table.mem_of_get? hid)) he
  have hused : ctx₁.useSymbols (ctx.record id).line.formula =
      (.ok (), ctx₁.addConstants s.unbound) := by
    rw [h.line, useSymbols, hs]
  have h₂ := h₁.quiet (quiet_useSymbols ctx₁ (ctx.record id).line.formula)
  rw [hused] at h₂
  obtain ⟨pending', ctx₃, hcompile⟩ := h₂.exists_compileReady ha hcurrent hpending
  obtain ⟨h₃, hsub⟩ := h₂.compileReady hpending hcompile
  exact ⟨_, pending', ctx₃, hused, hcompile, h₃, List.Subset.trans hsub hpending⟩

/-- If each line is accepted in any context with the same lines and blocks, then the run goes
    through. -/
private theorem Progress.exists_accepts (h : Progress base accepted ctx) (ha : base.Assembled)
    (hcurrent : base.Current) {pending : List (List Int × BlockId)}
    (hpending : pending ⊆ base.registered.entries) {rest : List (Int × LineId)}
    (hrest : rest ⊆ base.lines.entries)
    (hexamine : ∀ e ∈ rest, ∀ ctx, Frame base ctx → ∃ ctx', ctx.examine e.2 = (.ok (), ctx'))
    (hsymbols : ∀ e ∈ rest, ∃ s, (base.record e.2).line.formula.symbols = .ok s) :
    ∃ ctx', Accepts ctx accepted pending rest ctx' := by
  induction rest generalizing ctx accepted pending with
  | nil => exact ⟨ctx, .done⟩
  | cons e rest ih =>
    obtain ⟨n, id⟩ := e
    rw [List.cons_subset] at hrest
    rw [List.forall_mem_cons] at hexamine hsymbols
    obtain ⟨ctx₁, hctx₁⟩ := hexamine.1 ctx h.toFrame
    -- what is known of the context decides that the types can be found
    obtain ⟨ctx₂, pending', ctx₃, hused, hcompile, h₃, hpending'⟩ := h.exists_step ha hcurrent
      hpending (Table.get?_of_mem ha.lines_nodup hrest.1) hctx₁ hsymbols.1
    obtain ⟨ctx', hctx'⟩ := ih h₃ hpending' hrest.2 hexamine.2 hsymbols.2
    exact ⟨ctx', .step hctx₁ hused hcompile hctx'⟩

/-! ## Checks -/

/-- Nothing is known before a run. -/
theorem Assembled.progress (ha : base.Assembled) : Progress base [] base where
  toFrame := (Quiet.refl base).toFrame
  examined hn := absurd hn List.not_mem_nil
  assumes harg := by rw [ha.unexamined] at harg; cases harg
  types htype := by rw [ha.untyped, Table.get?_empty] at htype; cases htype

/-- The lines of an assembled context come up in the order of their numbers, which are different. -/
theorem Assembled.sortedLines_pairwise (ha : base.Assembled) :
    base.sortedLines.Pairwise fun d e => d.1 < e.1 :=
  sortBy_pairwise_lt Prod.fst ha.lines_nodup

/-- Sorting the lines loses none and adds none. -/
theorem sortedLines_perm (ctx : Context) : ctx.sortedLines.Perm ctx.lines.entries :=
  sortBy_perm Prod.fst ctx.lines.entries

/-- What a check that answers yes establishes. -/
theorem Assembled.checked (ha : base.Assembled) (h : base.check.result = .ok true) :
    (∃ accepted, Progress base accepted base.check.context) ∧
      ∀ e ∈ base.sortedLines, Warrant base e.1 (base.record e.2).line := by
  obtain ⟨-, ctx₀, hpremises, haccepts⟩ := check_eq_true.mp ⟨h, rfl⟩
  have hquiet := quiet_usePremises base (base.sortedLines.map Prod.snd)
  rw [hpremises] at hquiet
  refine haccepts.progress ha (ha.progress.quiet hquiet) ?_ (sortedLines_perm base).subset
    ha.sortedLines_pairwise (by simp)
  rw [hquiet.registered]
  exact List.Subset.refl _

/-- A context without premises passes its check if each of its lines is accepted in any context with
    the same lines and blocks. -/
theorem Assembled.check_of_examine (ha : base.Assembled) (hmain : base.main.isSome)
    (hcurrent : base.Current)
    (hpremises : ∀ e ∈ base.lines.entries, (base.record e.2).line.isPremise = false)
    (hexamine : ∀ e ∈ base.lines.entries, ∀ ctx, Frame base ctx →
      ∃ ctx', ctx.examine e.2 = (.ok (), ctx'))
    (hsymbols : ∀ e ∈ base.lines.entries, ∃ s, (base.record e.2).line.formula.symbols = .ok s) :
    base.check.result = .ok true := by
  have hmem : ∀ e ∈ base.sortedLines, e ∈ base.lines.entries := (sortedLines_perm base).subset
  -- without premises nothing comes into use before the first line
  have hused : base.usePremises (base.sortedLines.map Prod.snd) = (.ok (), base) :=
    usePremises_of_none (List.forall_mem_map.mpr fun e he => hpremises e (hmem e he))
  obtain ⟨ctx', haccepts⟩ := ha.progress.exists_accepts ha hcurrent (List.Subset.refl _) hmem
    (fun e he => hexamine e (hmem e he)) fun e he => hsymbols e (hmem e he)
  exact (check_eq_true.mpr ⟨hmain, base, hused, haccepts⟩).1

/-- In a context that passes its check every line has a warrant. -/
theorem Assembled.warrant_of_check (ha : base.Assembled) (h : base.check.result = .ok true)
    {n : Int} {id : LineId} (hmem : (n, id) ∈ base.lines.entries) :
    Warrant base n (base.record id).line :=
  (ha.checked h).2 (n, id) ((sortedLines_perm base).mem_iff.mpr hmem)

end Context

/-! ## Scripts -/

namespace Script

/-- The context that the blocks of a script are put into. -/
def context (s : Script) (standing : Bindings) : Context :=
  ({ standing := standing } : Context).addBlocks s.blocks

variable {s : Script} {standing : Bindings}

/-- The context of a script was made by adding blocks. -/
theorem assembled_context (s : Script) (standing : Bindings) : (s.context standing).Assembled :=
  Context.assembled_addBlocks standing s.blocks

/-- Its blocks are those of the script, where no number repeats. -/
theorem laid_context (hn : s.numbers.Nodup) (standing : Bindings) :
    (s.context standing).Laid s.blocks :=
  Context.laid_addBlocks standing hn

/-- The main block of the context is the outermost block of the script. -/
theorem blockLines_main (hn : s.numbers.Nodup) {b : BlockId}
    (hb : (s.context standing).main = some b) : (s.context standing).blockLines b = s.own :=
  (laid_context hn standing).blockLines_main hb

/-- Where no number repeats, a line is told by its number. -/
theorem eq_of_number_eq (hn : s.numbers.Nodup) {k l : Line} (hk : k ∈ s.lines) (hl : l ∈ s.lines)
    (h : k.number = l.number) : k = l :=
  List.inj_on_of_nodup_map hn hk hl h

/-- Every line of a script that passes its check has a warrant. -/
theorem warrant_of_check (hn : s.numbers.Nodup)
    (hcheck : (s.context standing).check.result = .ok true) {l : Line} (hl : l ∈ s.lines) :
    (s.context standing).Warrant l.number l := by
  obtain ⟨id, hmem, hline⟩ := (laid_context hn standing).exists_mem_entries hl
  have hwarrant := (s.assembled_context standing).warrant_of_check hcheck hmem
  rwa [hline] at hwarrant

/-- A cited line is one of the script and bears the number by which it is cited. -/
theorem cited_of_cite (hn : s.numbers.Nodup) {ns : List Int} {ids : List LineId}
    (h : (s.context standing).cite ns = .ok ids) {id : LineId} (hid : id ∈ ids) :
    ((s.context standing).record id).line ∈ s.lines ∧
      ((s.context standing).record id).line.number ∈ ns := by
  -- a line that is cited is what one of the numbers stands for
  have hget : some id ∈ ns.map (s.context standing).lines.get? := by
    rw [Context.map_get?_of_cite h]
    exact List.mem_map_of_mem hid
  obtain ⟨n, hmem, hn'⟩ := List.mem_map.mp hget
  obtain ⟨hline, hnumber⟩ := (laid_context hn standing).line_of_mem_entries (Table.mem_of_get? hn')
  exact ⟨hline, hnumber ▸ hmem⟩

/-- The block that is deduced from has the lines whose numbers are cited. -/
theorem mem_blockLines_of_registered (hn : s.numbers.Nodup) {ns : List Int} {b : BlockId}
    (hb : (s.context standing).registered.get? (sortNumbers ns) = some b) {l : Line} :
    l ∈ (s.context standing).blockLines b ↔ l ∈ s.lines ∧ l.number ∈ ns := by
  have hlaid := laid_context hn standing
  obtain ⟨hlt, hkey⟩ := (s.assembled_context standing).key_eq (Table.mem_of_get? hb)
  rw [hlaid.keys_members hlt] at hkey
  -- the block is registered under the sorted numbers of its lines
  have hperm := perm_of_sortNumbers_eq hkey
  constructor
  · intro hl
    exact ⟨hlaid.mem_flatten_of_mem_blockLines hlt hl, hperm.mem_iff.mpr (List.mem_map_of_mem hl)⟩
  · rintro ⟨hl, hnumber⟩
    obtain ⟨k, hk, heq⟩ := List.mem_map.mp (hperm.mem_iff.mp hnumber)
    rwa [← eq_of_number_eq hn (hlaid.mem_flatten_of_mem_blockLines hlt hk) hl heq]

end Script

end Sequitur
