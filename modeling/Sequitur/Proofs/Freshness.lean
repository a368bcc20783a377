import Sequitur.Proofs.FreeVariables
import Sequitur.Proofs.Moments
import Sequitur.Proofs.Quantification
import Sequitur.Report

/-!
# Fresh choices

An existential instantiation must choose a variable that is not in use.  In use are the variables of
the premises, from the start, and those of each line once it is accepted; but of the variables of a
formula only those count that are free in it and not bound as well.

So a choice is fresh up to that: it may be free in an earlier formula or in a premise, as long as
some quantifier of the same formula is over it.

## Key results

- `Unchecked.mem_constants_iff`: which variables are in use at a moment
- `choice_admitted_iff`: when an existential instantiation is accepted
-/

namespace Sequitur.Context

variable {base ctx ctx' : Context} {accepted : List Int} {pending : List (List Int × BlockId)}
  {rest : List (Int × LineId)} {n : Int} {id : LineId} {v : Variable}

/-- What is taken to be in use is in use, with what was before. -/
private theorem mem_constants_addConstants {vs : List Variable} :
    v ∈ (ctx.addConstants vs).constants ↔ v ∈ ctx.constants ∨ v ∈ vs := by
  simp only [addConstants, List.mem_append, List.mem_filter, decide_eq_true_iff]
  by_cases hv : v ∈ ctx.constants <;> simp [hv]

/-- The variables of a formula come into use where they are free and not bound. -/
theorem mem_constants_useSymbols {f : Formula} (h : ctx.useSymbols f = (.ok (), ctx')) :
    v ∈ ctx'.constants ↔ v ∈ ctx.constants ∨ f.FreeIn v ∧ ¬ f.BoundIn v := by
  obtain ⟨s, hs, rfl⟩ := useSymbols_ok h
  rw [mem_constants_addConstants, Formula.mem_unbound_symbols hs]

/-- The variables of the premises come into use first. -/
theorem mem_constants_usePremises {ids : List LineId}
    (h : ctx.usePremises ids = (.ok (), ctx')) :
    v ∈ ctx'.constants ↔ v ∈ ctx.constants ∨ ∃ id ∈ ids, (ctx.record id).line.isPremise ∧
      (ctx.record id).line.formula.FreeIn v ∧ ¬ (ctx.record id).line.formula.BoundIn v := by
  induction ids generalizing ctx with
  | nil =>
    cases h
    simp
  | cons id ids ih =>
    simp only [usePremises] at h
    split at h
    · rename_i hpremise
      split at h
      · cases h
      · rename_i ctx₁ hsymbols
        -- the lines are the same after the symbols of the first premise were taken
        have hrecord : ctx₁.record = ctx.record := by
          obtain ⟨s, -, rfl⟩ := useSymbols_ok hsymbols
          rfl
        rw [ih h, mem_constants_useSymbols hsymbols, hrecord, or_assoc]
        simp [hpremise]
    · rename_i hpremise
      rw [ih h]
      simp [hpremise]

/-- In use are the variables that are free and not bound in a premise or in a line accepted so
    far. -/
theorem Unchecked.mem_constants_iff (hu : base.Unchecked)
    (h : Reaches base accepted pending rest ctx) :
    v ∈ ctx.constants ↔ ∃ k l, base.line? k = some l ∧ (l.isPremise ∨ k ∈ accepted) ∧
      l.formula.FreeIn v ∧ ¬ l.formula.BoundIn v := by
  induction h with
  | start hmain hpremises =>
    -- before the first line only the premises have been looked at
    rw [mem_constants_usePremises hpremises, hu.constants_eq]
    constructor
    · rintro (hv | ⟨id, hid, hpremise, hfree⟩)
      · cases hv
      · obtain ⟨⟨k, _⟩, hk, rfl⟩ := List.mem_map.mp hid
        have hget := Table.get?_of_mem hu.lines_nodup ((sortedLines_perm base).mem_iff.mp hk)
        exact ⟨k, _, line?_of_get? hget, .inl hpremise, hfree⟩
    · rintro ⟨k, l, hl, hpremise | hk, hfree⟩
      · obtain ⟨id, hid, rfl⟩ := Option.map_eq_some_iff.mp hl
        have hmem := (sortedLines_perm base).mem_iff.mpr (Table.mem_of_get? hid)
        exact .inr ⟨id, List.mem_map_of_mem hmem, hpremise, hfree⟩
      · cases hk
  | @step ctx ctx₁ ctx₂ ctx₃ accepted pending pending' n id rest before hexamine hsymbols hcompile
      ih =>
    have hline := line?_of_get? (hu.get?_of_reaches before)
    obtain ⟨types, htypes⟩ := compileReady_context ctx₂ (n :: accepted) pending
    rw [hcompile] at htypes
    subst htypes
    -- neither the examination nor the types bring a variable into use, only the symbols do
    rw [mem_constants_useSymbols hsymbols, constants_examine hexamine, ih, before.frame.line]
    constructor
    · rintro (⟨k, l, hl, hin, hfree⟩ | hfree)
      · exact ⟨k, l, hl, hin.imp_right (List.mem_cons_of_mem n), hfree⟩
      · exact ⟨n, _, hline, .inr List.mem_cons_self, hfree⟩
    · rintro ⟨k, l, hl, hpremise | hk, hfree⟩
      · exact .inl ⟨k, l, hl, .inl hpremise, hfree⟩
      · rcases List.mem_cons.mp hk with rfl | hk
        · -- the line that has just been accepted
          rw [hline, Option.some_inj] at hl
          exact .inr (hl ▸ hfree)
        · exact .inl ⟨k, l, hl, .inr hk, hfree⟩

/-- When a line comes up, what has been accepted are the lower numbers. -/
theorem Unchecked.mem_constants_iff_lower (hu : base.Unchecked)
    (h : Reaches base accepted pending ((n, id) :: rest) ctx) :
    v ∈ ctx.constants ↔ ∃ k l, base.line? k = some l ∧ (l.isPremise ∨ k < n) ∧
      l.formula.FreeIn v ∧ ¬ l.formula.BoundIn v := by
  rw [hu.mem_constants_iff h]
  refine exists₂_congr fun k l => and_congr_right fun hl => ?_
  obtain ⟨j, hj, -⟩ := Option.map_eq_some_iff.mp hl
  have hlower : k ∈ accepted ↔ k < n := (hu.mem_accepted_iff h).trans (and_iff_left ⟨j, hj⟩)
  rw [hlower]

/-- An existential instantiation that comes up in a check of blocks in a new context is accepted
    when its symbols are in order and it instantiates to a variable which is bound as well in each
    premise of the context and each line with a lower number that it is free in. -/
theorem choice_admitted_iff (standing : Bindings) (blocks : List (List Line)) (accepted : List Int)
    (pending : List (List Int × BlockId)) (n : Int) (id : LineId) (rest : List (Int × LineId))
    (ctx : Context)
    (h : Reaches (({ standing := standing } : Context).addBlocks blocks) accepted pending
      ((n, id) :: rest) ctx)
    (hrule : (ctx.record id).line.reason.rule = "ei") :
    ctx.Admits id ↔ (∃ s, (ctx.record id).line.formula.symbols = .ok s) ∧
      ∃ w, ctx.Chooses n w ∧ ∀ k l, ctx.line? k = some l → l.isPremise ∨ k < n →
        l.formula.FreeIn w → l.formula.BoundIn w := by
  have hu := unchecked_addBlocks standing blocks
  -- nothing else about how the context was made is used
  generalize ({ standing := standing } : Context).addBlocks blocks = base at h hu
  have hget : ctx.lines.get? n = some id := by
    rw [h.frame.lines]
    exact hu.get?_of_reaches h
  have hunused : ∀ w, w ∉ ctx.constants ↔ ∀ k l, ctx.line? k = some l → l.isPremise ∨ k < n →
      l.formula.FreeIn w → l.formula.BoundIn w := by
    intro w
    rw [hu.mem_constants_iff_lower h, h.frame.line?]
    constructor
    · intro hnone k l hl hin hfree
      by_contra hbound
      exact hnone ⟨k, l, hl, hin, hfree, hbound⟩
    · rintro hall ⟨k, l, hl, hin, hfree, hbound⟩
      exact hbound (hall k l hl hin hfree)
  rw [admits_iff, exists_examine_ei_iff hget hrule, and_comm]
  simp only [hunused]

/-- A new name is chosen after a line that has the same name bound. -/
theorem choice_admitted_iff_bound_before :
    let blocks : List (List Line) := [[
      ⟨1, .all (.named "c") (.pred "Q" [.named "c"]), ⟨"prem", []⟩⟩,
      ⟨2, .ex (.named "x") (.pred "R" [.named "x", .named "d"]), ⟨"prem", []⟩⟩,
      ⟨3, .pred "R" [.named "c", .named "d"], ⟨"ei", [2]⟩⟩]]
    ∃ accepted pending rest ctx,
      (Reaches (({} : Context).addBlocks blocks) accepted pending ((3, 2) :: rest) ctx ∧
        (ctx.record 2).line.reason.rule = "ei" ∧ ctx.Admits 2) ∧
      (ctx.Admits 2 ↔ (∃ s, (ctx.record 2).line.formula.symbols = .ok s) ∧
        ∃ w, ctx.Chooses 3 w ∧ ∀ k l, ctx.line? k = some l → l.isPremise ∨ k < 3 →
          l.formula.FreeIn w → l.formula.BoundIn w) := by
  intro blocks
  have hcheck : (({} : Context).addBlocks blocks).check.result = .ok true := by decide +kernel
  have hmem : (3, 2) ∈ (({} : Context).addBlocks blocks).lines.entries := by decide +kernel
  obtain ⟨accepted, pending, rest, ctx, hreaches, hadmits⟩ := exists_reaches_of_check hcheck hmem
  have hrule : (ctx.record 2).line.reason.rule = "ei" := by
    rw [hreaches.frame.line]
    decide +kernel
  exact ⟨accepted, pending, rest, ctx, ⟨hreaches, hrule, hadmits⟩,
    choice_admitted_iff {} blocks accepted pending 3 2 rest ctx hreaches hrule⟩

/-- A choice that is free in a premise passes where the premise has it bound as well. -/
theorem choice_free_in_premise_passes :
    let text := "1. P(c) /\\ (forall c, Q(c)) prem; 2. exists x, R(x) prem; 3. R(c) ei 2;"
    let ctx := ({} : Context).addBlocks [[
      ⟨1, .conj (.pred "P" [.named "c"]) (.all (.named "c") (.pred "Q" [.named "c"])),
        ⟨"prem", []⟩⟩,
      ⟨2, .ex (.named "x") (.pred "R" [.named "x"]), ⟨"prem", []⟩⟩,
      ⟨3, .pred "R" [.named "c"], ⟨"ei", [2]⟩⟩]]
    (({} : Context).addText text = (none, ctx) ∧ ctx.check.result = .ok true) ∧
      ctx.Chooses 3 (.named "c") ∧
      ∃ l, ctx.line? 1 = some l ∧ l.isPremise ∧ l.formula.FreeIn (.named "c") := by
  intro text ctx
  refine ⟨⟨by decide +kernel +revert, by decide +kernel +revert⟩, ?_, ?_⟩
  · exact ⟨⟨3, .pred "R" [.named "c"], ⟨"ei", [2]⟩⟩,
      ⟨2, .ex (.named "x") (.pred "R" [.named "x"]), ⟨"prem", []⟩⟩,
      ⟨by decide +kernel +revert, 2, rfl, by decide +kernel +revert⟩, .named "x",
      .pred "R" [.named "x"], rfl, by decide +kernel⟩
  · exact ⟨⟨1, .conj (.pred "P" [.named "c"]) (.all (.named "c") (.pred "Q" [.named "c"])),
      ⟨"prem", []⟩⟩, by decide +kernel +revert, rfl, by decide⟩

end Sequitur.Context
