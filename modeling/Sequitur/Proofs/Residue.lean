import Sequitur.Proofs.Completion
import Sequitur.Proofs.Freshness
import Sequitur.Proofs.Transcript
import Sequitur.Proofs.Verdict

/-!
# What a run leaves behind

A run leaves a context in which lines have been examined, blocks have got types, variables are in
use and names are in scope, whether it ends with an answer or breaks off.  Whatever every step
keeps, in any outcome, holds of that context and at every moment (`Kept`).

Two things are kept.  What is known stays known (`Grows`).  And what is known is true of the lines
and blocks as they were added (`Faithful`): a type is what the lines of the block say.

## Key results

- `Kept.check`: what every step keeps is true of the context after a run
- `kept_faithful`, `kept_grows`: types and arguments tell the truth and stay
- `exists_compileReady_iff`: when the types of all complete blocks can be found
-/

namespace Sequitur.Context

variable {base ctx ctx' : Context} {accepted : List Int}
  {pending pending' : List (List Int × BlockId)}
  {rest : List (Int × LineId)} {n : Int} {id : LineId} {b : BlockId} {f : Formula}

/-! ## What every step keeps -/

/-- A run that gives up leaves the context as it is. -/
theorem context_fail (ctx : Context) (e : Failure) : (ctx.fail e).context = ctx := by
  cases e <;> rfl

/-- Every step of a check of the lines of `base` keeps `P`, whether it succeeds or not. -/
structure Kept (base : Context) (P : Context → Prop) : Prop where
  examine : ∀ {ctx n id}, base.lines.get? n = some id → P ctx → P (ctx.examine id).2
  symbols : ∀ {ctx} f, P ctx → P (ctx.useSymbols f).2
  compile : ∀ {ctx} b, P ctx → P (ctx.compile b).2

section

variable {P : Context → Prop} (hk : Kept base P)

include hk

/-- Looking through the premises keeps it. -/
theorem Kept.usePremises (ids : List LineId) (h : P ctx) : P (ctx.usePremises ids).2 := by
  induction ids generalizing ctx with
  | nil => exact h
  | cons j ids ih =>
    have hsymbols := hk.symbols (ctx.record j).line.formula h
    simp only [Context.usePremises]
    split
    · split <;> rename_i hused <;> rw [hused] at hsymbols
      · exact hsymbols
      · exact ih hsymbols
    · exact ih h

/-- Finding the types of complete blocks keeps it. -/
theorem Kept.compileReady (accepted : List Int) (pending : List (List Int × BlockId)) (h : P ctx) :
    P (ctx.compileReady accepted pending).2 := by
  induction pending generalizing ctx with
  | nil => exact h
  | cons e pending ih =>
    have hcompile := hk.compile e.2 h
    simp only [Context.compileReady]
    split
    · split <;> rename_i hcompiled <;> rw [hcompiled] at hcompile
      · exact hcompile
      · exact ih hcompile
    · -- the block waits, and the others are looked at
      have hrest := ih h
      split <;> rename_i hready <;> rw [hready] at hrest <;> exact hrest

/-- Checking lines keeps it, wherever the run ends. -/
theorem Kept.checkLines (hrest : ∀ e ∈ rest, base.lines.get? e.1 = some e.2) (h : P ctx) :
    P (ctx.checkLines accepted pending rest).context := by
  induction rest generalizing ctx accepted pending with
  | nil => exact h
  | cons e rest ih =>
    obtain ⟨n, id⟩ := e
    rw [List.forall_mem_cons] at hrest
    -- each of the three steps may end the run, in the context in which it leaves off
    have hexamine := hk.examine hrest.1 h
    simp only [Context.checkLines]
    split <;> rename_i ctx₁ hexamined <;> rw [hexamined] at hexamine
    · exact (context_fail ctx₁ _).symm ▸ hexamine
    have hsymbols := hk.symbols (ctx.record id).line.formula hexamine
    split <;> rename_i ctx₂ hused <;> rw [hused] at hsymbols
    · exact (context_fail ctx₂ _).symm ▸ hsymbols
    have hcompile := hk.compileReady (n :: accepted) pending hsymbols
    split <;> rename_i ctx₃ hcompiled <;> rw [hcompiled] at hcompile
    · exact (context_fail ctx₃ _).symm ▸ hcompile
    · exact ih hrest.2 hcompile

/-- What every step keeps is true of the context that a run leaves. -/
theorem Kept.check (hlines : ∀ e ∈ ctx.sortedLines, base.lines.get? e.1 = some e.2) (h : P ctx) :
    P ctx.check.context := by
  have hpremises := hk.usePremises (ctx.sortedLines.map Prod.snd) h
  unfold Context.check
  split
  · exact h
  · simp only
    split <;> rename_i ctx₀ hused <;> rw [hused] at hpremises
    · exact (context_fail ctx₀ _).symm ▸ hpremises
    · exact hk.checkLines hlines hpremises

/-- What every step keeps is true at every moment. -/
theorem Kept.reaches (hlines : ∀ e ∈ base.sortedLines, base.lines.get? e.1 = some e.2)
    {left : Context} (hleft : left.sortedLines = base.sortedLines) (h : P left)
    (hr : Reaches left accepted pending rest ctx) : P ctx := by
  induction hr with
  | start _ hpremises =>
    have hkept := hk.usePremises (left.sortedLines.map Prod.snd) h
    rwa [hpremises] at hkept
  | @step ctx ctx₁ ctx₂ ctx₃ accepted pending pending' n id rest before hexamine hsymbols hcompile
      ih =>
    obtain ⟨done, hsorted, -⟩ := before.exists_sortedLines_eq
    -- what comes up in the other context is a line of this one
    have hget : base.lines.get? n = some id := by
      refine hlines (n, id) ?_
      rw [← hleft, hsorted]
      exact List.mem_append_right _ List.mem_cons_self
    have h₁ := hk.examine hget ih
    rw [hexamine] at h₁
    have h₂ := hk.symbols (ctx.record id).line.formula h₁
    rw [hsymbols] at h₂
    have h₃ := hk.compileReady (n :: accepted) pending h₂
    rwa [hcompile] at h₃

end

/-- A line that comes up is what its number stands for. -/
theorem Assembled.get?_of_mem_sortedLines (ha : base.Assembled) :
    ∀ e ∈ base.sortedLines, base.lines.get? e.1 = some e.2 :=
  fun _ he => Table.get?_of_mem ha.lines_nodup ((sortedLines_perm base).mem_iff.mp he)

/-! ## An examination in any outcome -/

/-- The two ways in which an examination goes on: the reason has no meaning, or what it means is
    recorded and verified. -/
theorem snd_examine (ctx : Context) (id : LineId) :
    (ctx.examine id).2 = ctx ∨
      ∃ arg vars, ctx.interpret (ctx.record id).line.reason = .ok (arg, vars) ∧
        (ctx.examine id).2 = ((ctx.recorded id arg vars).verify id arg).2 := by
  cases hinterpret : ctx.interpret (ctx.record id).line.reason with
  | error e =>
    left
    simp only [examine, hinterpret]
  | ok r =>
    right
    exact ⟨r.1, r.2, rfl, by rw [examine_of_interpret hinterpret]⟩

/-- Recording an argument leaves lines and blocks alone. -/
private theorem frame_recorded (ctx : Context) (id : LineId) (arg : Argument)
    (vars : VariableContext) : Frame ctx (ctx.recorded id arg vars) :=
  (quiet_store ctx _).toFrame.trans (frame_modifyRecord _ id fun _ => rfl)

/-- Verifying takes no variables to be in use. -/
private theorem constants_verify (ctx : Context) (id : LineId) (arg : Argument) :
    (ctx.verify id arg).2.constants = ctx.constants := by
  rcases hverify : ctx.verify id arg with ⟨e | _, ctx'⟩
  · rcases verify_error hverify with rfl | ⟨q, -, rfl⟩ <;> rfl
  · cases verifies_of_ok hverify <;> rfl

/-- An examination takes no variables to be in use. -/
private theorem constants_snd_examine (ctx : Context) (id : LineId) :
    (ctx.examine id).2.constants = ctx.constants := by
  rcases snd_examine ctx id with heq | ⟨arg, vars, -, heq⟩ <;> rw [heq]
  exact constants_verify _ id arg

/-- An examination finds no types. -/
theorem types_snd_examine (ctx : Context) (id : LineId) : (ctx.examine id).2.types = ctx.types := by
  rcases snd_examine ctx id with heq | ⟨arg, vars, -, heq⟩ <;> rw [heq]
  exact (quiet_verify _ id arg).types

/-- An examination leaves lines and blocks alone. -/
theorem frame_snd_examine (ctx : Context) (id : LineId) : Frame ctx (ctx.examine id).2 := by
  rcases snd_examine ctx id with heq | ⟨arg, vars, -, heq⟩ <;> rw [heq]
  · exact (Quiet.refl ctx).toFrame
  · exact (frame_recorded ctx id arg vars).trans (quiet_verify _ id arg).toFrame

/-- What was found out about a line that is not the examined one stays. -/
private theorem argument_snd_examine (ctx : Context) (id j : LineId) :
    ((ctx.examine id).2.record j).argument = (ctx.record j).argument ∨
      ∃ arg vars, ctx.interpret (ctx.record id).line.reason = .ok (arg, vars) ∧ j = id ∧
        ((ctx.examine id).2.record j).argument = some arg := by
  rcases snd_examine ctx id with heq | ⟨arg, vars, hinterpret, heq⟩ <;> rw [heq]
  · exact .inl rfl
  · rw [(quiet_verify _ id arg).argument, record_recorded]
    split
    · rename_i hj
      exact .inr ⟨arg, vars, hinterpret, hj.1, rfl⟩
    · exact .inl rfl

/-- A verification keeps every set in the store, whether it succeeds or not. -/
private theorem housed_verify (hlt : id < ctx.records.length) (h : ctx.Housed) (arg : Argument) :
    (ctx.verify id arg).2.Housed := by
  rcases hverify : ctx.verify id arg with ⟨e | _, ctx'⟩
  · -- a failure has changed nothing, or has taken over the sets of a line
    rcases verify_error hverify with rfl | ⟨q, -, rfl⟩
    · exact h
    · exact housed_takeOver hlt h
  · cases verifies_of_ok hverify with
    | ui _ _ _ => exact housed_bring hlt h
    | ui_again _ _ _ => exact h
    | ug _ _ _ => exact fun hmem => h (mem_scope_of_release hlt hmem)
    | ei _ _ => exact housed_changeSets h
    | eg w => exact housed_changeSets (housed_takeOver hlt h)
    | formulas _ _ => exact h

/-- So does an examination. -/
theorem housed_snd_examine (hlt : id < ctx.records.length) (h : ctx.Housed) :
    (ctx.examine id).2.Housed := by
  rcases snd_examine ctx id with heq | ⟨arg, vars, hinterpret, heq⟩ <;> rw [heq]
  · exact h
  · obtain ⟨ids, -, rfl, -⟩ := interpret_eq_ok.mp hinterpret
    have hrecorded := recorded_recorded hlt h arg ids
    intro j c i hmem
    exact housed_verify (hrecorded.length_eq ▸ hlt) hrecorded.housed arg hmem

/-! ## What is known stays known -/

/-- Nothing that was in use, typed or examined is not any more. -/
structure Grows (ctx ctx' : Context) : Prop where
  constants : ctx.constants ⊆ ctx'.constants
  types : ∀ {b}, (ctx.types.get? b).isSome → (ctx'.types.get? b).isSome
  argument : ∀ {j}, (ctx.record j).argument.isSome → (ctx'.record j).argument.isSome

theorem Grows.refl (ctx : Context) : Grows ctx ctx := ⟨List.Subset.refl _, id, id⟩

theorem Grows.trans {ctx₁ ctx₂ ctx₃ : Context} (h : Grows ctx₁ ctx₂) (h' : Grows ctx₂ ctx₃) :
    Grows ctx₁ ctx₃ :=
  ⟨List.Subset.trans h.constants h'.constants, fun hb => h'.types (h.types hb),
    fun hj => h'.argument (h.argument hj)⟩

/-- An examination forgets nothing. -/
private theorem grows_examine (ctx : Context) (id : LineId) : Grows ctx (ctx.examine id).2 where
  constants := by rw [constants_snd_examine]; exact List.Subset.refl _
  types h := by rwa [types_snd_examine]
  argument {j} h := by
    rcases argument_snd_examine ctx id j with heq | ⟨arg, vars, -, -, heq⟩ <;> rw [heq]
    · exact h
    · rfl

/-- Symbols only come into use. -/
private theorem grows_useSymbols (ctx : Context) (f : Formula) :
    Grows ctx (ctx.useSymbols f).2 := by
  unfold useSymbols
  split
  · exact .refl ctx
  · exact ⟨List.subset_append_left _ _, id, id⟩

/-- Types are only added. -/
private theorem grows_compile (ctx : Context) (b : BlockId) : Grows ctx (ctx.compile b).2 := by
  unfold compile
  simp only
  split
  · refine ⟨List.Subset.refl _, fun {c} hc => ?_, id⟩
    rw [Table.get?_put]
    split <;> simp [hc]
  · exact .refl ctx

/-- What is known stays known, whatever a step comes to. -/
theorem kept_grows (base ctx : Context) : Kept base (Grows ctx) where
  examine _ h := h.trans (grows_examine _ _)
  symbols f h := h.trans (grows_useSymbols _ f)
  compile b h := h.trans (grows_compile _ b)

/-! ## What is known is true -/

/-- Lines and blocks are those of `base`, every set that is in scope is in the store, and arguments
    and types are what lines and blocks say. -/
structure Faithful (base ctx : Context) : Prop extends Frame base ctx where
  standing : ctx.standing = base.standing
  housed : ctx.Housed
  assumes : ∀ {j arg}, (ctx.record j).argument = some arg →
    arg.isAssumption = (base.record j).line.assumes
  types : ∀ {b type}, ctx.types.get? b = some type → type = base.blockType b

/-- What an examination records is true, whether it passes or not. -/
theorem Faithful.examine (h : Faithful base ctx) (hlt : id < base.records.length) :
    Faithful base (ctx.examine id).2 where
  toFrame := h.toFrame.trans (frame_snd_examine ctx id)
  standing := (ctx.standing_examine id).trans h.standing
  housed := housed_snd_examine (h.records_length ▸ hlt) h.housed
  assumes {j arg} hj := by
    rcases argument_snd_examine ctx id j with heq | ⟨arg', vars, hinterpret, rfl, heq⟩
    · exact h.assumes (heq ▸ hj)
    · rw [heq] at hj
      cases hj
      rw [isAssumption_of_interpret hinterpret, h.line]
  types hb := h.types (types_snd_examine ctx id ▸ hb)

/-- The type that a block is given is what its lines say. -/
theorem Faithful.compile (h : Faithful base ctx) (b : BlockId) :
    Faithful base (ctx.compile b).2 := by
  rcases hc : ctx.compile b with ⟨_ | type, ctx'⟩
  · -- no type is found
    unfold Context.compile at hc
    simp only at hc
    split at hc <;> cases hc
    exact h
  · obtain ⟨htype, rfl⟩ := compile_eq_of_assumes h.toFrame h.assumes hc
    refine ⟨h.toFrame.trans (frame_types ctx _), h.standing, h.housed,
      h.assumes, fun {c type'} hc => ?_⟩
    rw [Table.get?_put] at hc
    split at hc
    · rename_i heq
      cases hc
      rw [htype, heq]
    · exact h.types hc

/-- What is known stays true, whatever a step comes to. -/
theorem kept_faithful (ha : base.Assembled) : Kept base (Faithful base) where
  examine hget h := h.examine (ha.line_lt (Table.mem_of_get? hget))
  symbols f h := by
    unfold useSymbols
    split
    · exact h
    · exact ⟨h.toFrame.trans (quiet_addConstants _ _).toFrame, h.standing, h.housed,
        h.assumes, h.types⟩
  compile b h := h.compile b

/-- Before a check nothing is known. -/
theorem Unchecked.faithful (hu : base.Unchecked) : Faithful base base where
  toFrame := (Quiet.refl base).toFrame
  standing := rfl
  housed {j c i} hmem := by
    rw [hu.scope_eq j] at hmem
    cases hmem
  assumes hj := by
    rw [hu.unexamined] at hj
    cases hj
  types hb := by
    rw [hu.untyped] at hb
    cases hb

/-- Types and arguments tell the truth at every moment. -/
theorem Unchecked.faithful_reaches (hu : base.Unchecked)
    (h : Reaches base accepted pending rest ctx) : Faithful base ctx :=
  (kept_faithful hu.toAssembled).reaches hu.get?_of_mem_sortedLines rfl hu.faithful h

/-- Where the same blocks have types, the types are the same. -/
theorem Faithful.types_eq (h : Faithful base ctx) (h' : Faithful base ctx')
    (htyped : (ctx.types.get? b).isSome ↔ (ctx'.types.get? b).isSome) :
    ctx.types.get? b = ctx'.types.get? b := by
  cases hb : ctx.types.get? b with
  | none =>
    rw [hb] at htyped
    exact (Option.not_isSome_iff_eq_none.mp fun hsome => by simpa using htyped.mpr hsome).symm
  | some type =>
    obtain ⟨type', htype'⟩ := Option.isSome_iff_exists.mp (htyped.mp (by rw [hb]; rfl))
    rw [htype', h.types hb, h'.types htype']

/-! ## Blocks that wait -/

/-- The blocks that go on waiting are those of which some number has not been accepted. -/
theorem pending_of_compileReady (h : ctx.compileReady accepted pending = (.ok pending', ctx')) :
    pending' = pending.filter fun e => !(e.1.all fun n => n ∈ accepted) := by
  induction pending generalizing ctx pending' with
  | nil =>
    cases h
    rfl
  | cons e pending ih =>
    obtain ⟨key, b⟩ := e
    simp only [compileReady] at h
    split at h
    · -- a complete block no longer waits
      rename_i hall
      split at h
      · cases h
      · rw [ih h, List.filter_cons_of_neg (by simpa using hall)]
    · rename_i hnot
      split at h
      · cases h
      · rename_i rest ctx₁ hrest
        cases h
        rw [ih hrest, List.filter_cons_of_pos (by simpa using hnot)]

/-- The types of all complete blocks can be found when the lines of these blocks have been
    examined. -/
theorem exists_compileReady_iff :
    (∃ pending' ctx', ctx.compileReady accepted pending = (.ok pending', ctx')) ↔
      ∀ e ∈ pending, (∀ n ∈ e.1, n ∈ accepted) → ctx.Surveyed e.2 := by
  induction pending generalizing ctx with
  | nil => simp [compileReady]
  | cons e pending ih =>
    obtain ⟨key, b⟩ := e
    rw [List.forall_mem_cons]
    simp only [compileReady]
    split
    · rename_i hall
      have hall' : ∀ n ∈ key, n ∈ accepted := by simpa using hall
      rcases hcompile : ctx.compile b with ⟨f | type, ctx₁⟩
      · -- the block has a line that has not been examined
        have hnot : ¬ ctx.Surveyed b := by
          rw [← exists_compile_iff, hcompile]
          rintro ⟨_, _, hok⟩
          cases hok
        refine iff_of_false ?_ fun h => hnot (h.1 hall')
        rintro ⟨_, _, hok⟩
        cases hok
      · -- a type that is put does not change which lines have been examined
        obtain ⟨hsurveyed, rfl⟩ := compile_ok hcompile
        refine ih.trans ?_
        simp only [hsurveyed, implies_true, true_and]
        rfl
    · rename_i hnot
      have hnot' : ¬ ∀ n ∈ key, n ∈ accepted := by simpa using hnot
      simp only [hnot', false_implies, true_and, ← ih]
      rcases ctx.compileReady accepted pending with ⟨_ | _, _⟩ <;> simp

/-- What breaks off the search for types is a line that has not been examined. -/
theorem fault_of_compileReady {fault : Fault}
    (h : ctx.compileReady accepted pending = (.error fault, ctx')) : fault = .unexaminedLine := by
  induction pending generalizing ctx with
  | nil => cases h
  | cons e pending ih =>
    simp only [compileReady] at h
    split at h
    · split at h
      · rename_i hcompile
        cases h
        -- a type is missing only where a line of the block was not examined
        unfold compile at hcompile
        simp only at hcompile
        split at hcompile <;> cases hcompile
        rfl
      · exact ih h
    · split at h
      · rename_i hrest
        cases h
        exact ih hrest
      · cases h

/-- A type that has been found is that of a complete block. -/
private theorem typed_of_compileReady (h : ctx.compileReady accepted pending = (.ok pending', ctx'))
    (hb : (ctx'.types.get? b).isSome) :
    (ctx.types.get? b).isSome ∨ ∃ key, (key, b) ∈ pending ∧ ∀ n ∈ key, n ∈ accepted := by
  induction pending generalizing ctx pending' with
  | nil =>
    cases h
    exact .inl hb
  | cons e pending ih =>
    obtain ⟨key, c⟩ := e
    simp only [compileReady] at h
    split at h
    · rename_i hall
      split at h
      · cases h
      · rename_i type ctx₁ hcompile
        obtain ⟨-, rfl⟩ := compile_ok hcompile
        -- the type was there, or it is that of this block or of a later one
        rcases ih h with htyped | ⟨key', hkey', hall'⟩
        · rw [Table.get?_put] at htyped
          split at htyped
          · rename_i heq
            exact .inr ⟨key, heq ▸ List.mem_cons_self, by simpa using hall⟩
          · exact .inl htyped
        · exact .inr ⟨key', List.mem_cons_of_mem _ hkey', hall'⟩
    · split at h
      · cases h
      · rename_i hrest
        cases h
        rcases ih hrest with htyped | ⟨key', hkey', hall'⟩
        · exact .inl htyped
        · exact .inr ⟨key', List.mem_cons_of_mem _ hkey', hall'⟩

/-- Where more lines have been examined, the types of the same blocks can be found. -/
theorem exists_compileReady_of_argument (hblocks : ctx'.blocks = ctx.blocks)
    (hargument : ∀ {j}, (ctx.record j).argument.isSome → (ctx'.record j).argument.isSome)
    (h : ∃ pending₁ ctx₁, ctx.compileReady accepted pending = (.ok pending₁, ctx₁)) :
    ∃ pending₁ ctx₁, ctx'.compileReady accepted pending = (.ok pending₁, ctx₁) := by
  rw [exists_compileReady_iff] at h ⊢
  intro e he hall j hj
  rw [block, hblocks, ← block] at hj
  exact hargument (h e he hall j hj)

/-! ## A line that is accepted -/

/-- The lines that have been examined are one more. -/
theorem isSome_argument_examine (hlt : id < ctx.records.length)
    (h : ctx.examine id = (.ok (), ctx')) {j : LineId} :
    (ctx'.record j).argument.isSome ↔ j = id ∨ (ctx.record j).argument.isSome := by
  obtain ⟨arg, hexamined⟩ := examined_of_ok h
  rw [hexamined.argument]
  by_cases hj : j = id <;> simp [hj, hlt]

namespace Advances

variable (h : ctx.Advances accepted pending n id pending' ctx')

include h

/-- The line passes its examination. -/
theorem exists_examine : ∃ ctx₁, ctx.examine id = (.ok (), ctx₁) := by
  obtain ⟨ctx₁, -, hexamine, -⟩ := h
  exact ⟨ctx₁, hexamine⟩

/-- The blocks that go on waiting are those of which some number has not been accepted. -/
theorem pending_eq : pending' = pending.filter fun e => !(e.1.all fun k => k ∈ n :: accepted) := by
  obtain ⟨ctx₁, ctx₂, -, -, hcompile⟩ := h
  exact pending_of_compileReady hcompile

/-- The variables of the line that are free and not bound come into use. -/
theorem mem_constants_iff {v : Variable} :
    v ∈ ctx'.constants ↔ v ∈ ctx.constants ∨ (ctx.record id).line.formula.FreeIn v ∧
      ¬ (ctx.record id).line.formula.BoundIn v := by
  obtain ⟨ctx₁, ctx₂, hexamine, hsymbols, hcompile⟩ := h
  obtain ⟨types, htypes⟩ := compileReady_context ctx₂ (n :: accepted) pending
  rw [hcompile] at htypes
  subst htypes
  have hused : v ∈ ctx₂.constants ↔ _ := mem_constants_useSymbols hsymbols
  rwa [constants_examine hexamine] at hused

/-- The blocks that are complete get their types. -/
theorem typed_iff : (ctx'.types.get? b).isSome ↔ (ctx.types.get? b).isSome ∨
    ∃ key, (key, b) ∈ pending ∧ ∀ k ∈ key, k ∈ n :: accepted := by
  obtain ⟨ctx₁, ctx₂, hexamine, hsymbols, hcompile⟩ := h
  -- neither the examination nor the symbols give a block its type
  have htypes : ctx₂.types = ctx.types := by
    obtain ⟨s, -, rfl⟩ := useSymbols_ok hsymbols
    have hkept := types_snd_examine ctx id
    rwa [hexamine] at hkept
  obtain ⟨hwaiting, hkept, hsettled⟩ := compileReady_ok hcompile
  rw [← htypes]
  refine ⟨typed_of_compileReady hcompile, ?_⟩
  rintro (hb | ⟨key, hkey, hall⟩)
  · exact hkept b hb
  · rcases hsettled (key, b) hkey with hwait | ⟨htype, -⟩
    · obtain ⟨k, hk, hnot⟩ := hwaiting (key, b) hwait
      exact absurd (hall k hk) hnot
    · exact htype

/-- The line has been examined. -/
theorem isSome_argument_iff (hlt : id < ctx.records.length) {j : LineId} :
    (ctx'.record j).argument.isSome ↔ j = id ∨ (ctx.record j).argument.isSome := by
  obtain ⟨ctx₁, ctx₂, hexamine, hsymbols, hcompile⟩ := h
  obtain ⟨s, types, -, rfl⟩ := exists_eq_of_useSymbols_compileReady hsymbols hcompile
  exact isSome_argument_examine hlt hexamine

/-- What the lines have in scope is what the examination has left. -/
theorem handed (hget : ctx.lines.get? n = some id) (hlt : id < ctx.records.length)
    (hh : ctx.Housed) :
    ∃ ids, ctx.cite (ctx.record id).line.reason.citations = .ok ids ∧
      Handed ctx n id ids ctx' := by
  obtain ⟨ctx₁, ctx₂, hexamine, hsymbols, hcompile⟩ := h
  obtain ⟨s, types, -, rfl⟩ := exists_eq_of_useSymbols_compileReady hsymbols hcompile
  obtain ⟨ids, hids, hhanded⟩ := handed_of_examine hget hlt hh hexamine
  exact ⟨ids, hids, hhanded.housed, hhanded.inScope_of_ne, hhanded.ties_of_ne, hhanded.inScope_self,
    hhanded.ties_self⟩

end Advances

end Sequitur.Context
