import Sequitur.Proofs.Progress

/-!
# Moments of a check

A check examines one line after another until one is not accepted.  `Reaches` describes the moments
before, between and after the lines, in runs of any outcome: which numbers have been accepted, which
blocks wait for their types, which lines are still to come and what the context is.

Whatever holds of a context that nothing has been checked in (`Unchecked`) and is kept by each
accepted line holds at every moment.

## Key results

- `unchecked_addBlocks`: a new context to which blocks were added has nothing in use or in scope
- `examining_mem_check_iff`: a line is announced in a check when the check reaches it
- `exists_reaches_of_check`: a check that answers yes reaches and accepts every line
- `Assembled.mem_accepted_iff`: what has been accepted when a line comes up are the lower numbers
-/

namespace Sequitur.Context

/-! ## Before the check -/

/-- A context that was made by adding blocks, with no variable in use and no name in scope.  What a
    number stands for bears that number. -/
structure Unchecked (ctx : Context) : Prop extends Assembled ctx where
  number_eq : ∀ {e}, e ∈ ctx.lines.entries → (ctx.record e.2).line.number = e.1
  constants_eq : ctx.constants = []
  scope_eq : ∀ id, (ctx.record id).scope = {}

/-- Nothing was checked in the empty context. -/
theorem unchecked_empty (standing : Bindings) :
    ({ standing := standing } : Context).Unchecked where
  toAssembled := assembled_empty standing
  number_eq h := by cases h
  constants_eq := rfl
  scope_eq _ := rfl

/-- The lines of a new block stand behind the others. -/
theorem record_addBlock (ctx : Context) (ls : List Line) (id : LineId) :
    (ctx.addBlock ls).1.record id =
      if id < ctx.records.length then ctx.record id
      else ((ls[id - ctx.records.length]?).map Record.fresh).getD default := by
  rw [addBlock_eq]
  simp only [record, List.getD_eq_getElem?_getD, List.getElem?_append, List.getElem?_map]
  split <;> rfl

/-- A number is placed with the line that bears it. -/
theorem getElem?_of_mem_placed {k i : Nat} {ls : List Line} {n : Int}
    (h : (n, i) ∈ placed k ls) : k ≤ i ∧ (ls[i - k]?).map Line.number = some n := by
  induction ls generalizing k with
  | nil => cases h
  | cons l ls ih =>
    cases h with
    | head => simp
    | tail _ h =>
      obtain ⟨hle, hget⟩ := ih h
      -- the place counts from one further on
      have hsub : i - k = (i - (k + 1)) + 1 := by omega
      rw [hsub, List.getElem?_cons_succ]
      exact ⟨by omega, hget⟩

/-- Adding a block is no check. -/
theorem Unchecked.addBlock {ctx : Context} (h : ctx.Unchecked) (ls : List Line) :
    (ctx.addBlock ls).1.Unchecked where
  toAssembled := h.toAssembled.addBlock ls
  number_eq := by
    intro e he
    rw [record_addBlock]
    rw [addBlock_eq] at he
    rcases Table.mem_entries_putAll he with he | he
    · -- the number of a line of the new block
      obtain ⟨hle, hget⟩ := getElem?_of_mem_placed (Table.mem_of_mem_ofList he)
      obtain ⟨l, hl, hnumber⟩ := Option.map_eq_some_iff.mp hget
      rw [if_neg (Nat.not_lt.mpr hle), hl]
      exact hnumber
    · rw [if_pos (h.line_lt he)]
      exact h.number_eq he
  constants_eq := by
    rw [addBlock_eq]
    exact h.constants_eq
  scope_eq id := by
    rw [record_addBlock]
    split
    · exact h.scope_eq id
    · cases ls[id - ctx.records.length]? <;> rfl

/-- A context that blocks were added to was not checked. -/
theorem unchecked_addBlocks (standing : Bindings) (bs : List (List Line)) :
    (({ standing := standing } : Context).addBlocks bs).Unchecked := by
  induction bs using List.reverseRecOn with
  | nil => exact unchecked_empty standing
  | append_singleton bs ls ih =>
    rw [addBlocks_concat]
    exact ih.addBlock ls

/-- A line is the one that a number stands for under one number only. -/
theorem Unchecked.number_inj {ctx : Context} (h : ctx.Unchecked) {n m : Int} {id : LineId}
    (hn : ctx.lines.get? n = some id) (hm : ctx.lines.get? m = some id) : n = m :=
  (h.number_eq (Table.mem_of_get? hn)).symm.trans (h.number_eq (Table.mem_of_get? hm))

/-! ## Moments -/

/-- In the check of `base` a moment comes at which the numbers in `accepted` have been accepted, the
    blocks in `pending` have no type yet, the lines in `rest` are still to come, and the context is
    the given one. -/
inductive Reaches (base : Context) :
    List Int → List (List Int × BlockId) → List (Int × LineId) → Context → Prop
  | start {ctx} (main : base.main.isSome)
      (premises : base.usePremises (base.sortedLines.map Prod.snd) = (.ok (), ctx)) :
      Reaches base [] ctx.registered.entries base.sortedLines ctx
  | step {ctx ctx₁ ctx₂ ctx₃ accepted pending pending' n id rest}
      (before : Reaches base accepted pending ((n, id) :: rest) ctx)
      (examine : ctx.examine id = (.ok (), ctx₁))
      (symbols : ctx₁.useSymbols (ctx.record id).line.formula = (.ok (), ctx₂))
      (compile : ctx₂.compileReady (n :: accepted) pending = (.ok pending', ctx₃)) :
      Reaches base (n :: accepted) pending' rest ctx₃

variable {base ctx ctx' : Context} {accepted : List Int} {pending : List (List Int × BlockId)}
  {rest : List (Int × LineId)} {n : Int} {id : LineId}

/-- Notices that come earlier stand in front. -/
private theorem after_after (ms ns : List Notice) (r : Run) :
    (r.after ns).after ms = r.after (ms ++ ns) := by
  simp only [Run.after, List.append_assoc]

/-- Taking variables to be in use changes nothing else. -/
theorem useSymbols_ok {f : Formula} (h : ctx.useSymbols f = (.ok (), ctx')) :
    ∃ s, f.symbols = .ok s ∧ ctx' = ctx.addConstants s.unbound := by
  unfold useSymbols at h
  split at h
  · cases h
  · rename_i s hs
    cases h
    exact ⟨s, hs, rfl⟩

/-- The line `id` is accepted when it comes up: it passes its examination, and its symbols are in
    order. -/
def Admits (ctx : Context) (id : LineId) : Prop :=
  ∃ ctx₁ ctx₂, ctx.examine id = (.ok (), ctx₁) ∧
    ctx₁.useSymbols (ctx.record id).line.formula = (.ok (), ctx₂)

/-- A line is accepted when it passes its examination and its symbols are found. -/
theorem admits_iff :
    ctx.Admits id ↔ (∃ ctx', ctx.examine id = (.ok (), ctx')) ∧
      ∃ s, (ctx.record id).line.formula.symbols = .ok s := by
  constructor
  · rintro ⟨ctx₁, ctx₂, hexamine, hsymbols⟩
    obtain ⟨s, hs, -⟩ := useSymbols_ok hsymbols
    exact ⟨⟨ctx₁, hexamine⟩, s, hs⟩
  · rintro ⟨⟨ctx₁, hexamine⟩, s, hs⟩
    exact ⟨ctx₁, ctx₁.addConstants s.unbound, hexamine, by rw [useSymbols, hs]⟩

/-- The rest of a check is what it does from the moment on. -/
theorem Reaches.exists_check_eq (h : Reaches base accepted pending rest ctx) :
    ∃ notices, base.check = (ctx.checkLines accepted pending rest).after notices := by
  induction h with
  | start hmain hpremises =>
    obtain ⟨b, hb⟩ := Option.isSome_iff_exists.mp hmain
    refine ⟨[], ?_⟩
    rw [check, hb]
    simp only [hpremises]
    rfl
  | step before hexamine hsymbols hcompile ih =>
    obtain ⟨notices, hcheck⟩ := ih
    -- the rest of the check accepts the line first
    simp only [checkLines, hexamine, hsymbols, hcompile, after_after] at hcheck
    exact ⟨_, hcheck⟩

/-- What a run announces from a moment on it reaches. -/
private theorem Reaches.of_examining_mem (h : Reaches base accepted pending rest ctx) {l : Line}
    (hmem : .examining id l ∈ (ctx.checkLines accepted pending rest).notices) :
    ∃ accepted pending n rest ctx, Reaches base accepted pending ((n, id) :: rest) ctx ∧
      l = (ctx.record id).line := by
  induction rest generalizing ctx accepted pending with
  | nil => cases hmem
  | cons e rest ih =>
    obtain ⟨m, j⟩ := e
    have hfail : ∀ (ctx : Context) (e : Failure), .examining id l ∉ (ctx.fail e).notices := by
      intro ctx e
      cases e <;> simp [fail]
    by_cases hfirst : Notice.examining id l = .examining j (ctx.record j).line
    · cases hfirst
      exact ⟨accepted, pending, m, rest, ctx, h, rfl⟩
    · -- it is announced later, so the line that comes up now is accepted
      simp only [checkLines] at hmem
      split at hmem
      · simp [Run.after, hfail, hfirst] at hmem
      · rename_i ctx₁ hexamine
        split at hmem
        · simp [Run.after, hfail, hfirst] at hmem
        · rename_i ctx₂ hsymbols
          split at hmem
          · simp [Run.after, hfail, hfirst] at hmem
          · rename_i pending' ctx₃ hcompile
            refine ih (h.step hexamine hsymbols hcompile) ?_
            simpa [Run.after, hfirst] using hmem

/-- A check announces the lines that it reaches. -/
theorem examining_mem_check_iff {l : Line} :
    .examining id l ∈ base.check.notices ↔
      ∃ accepted pending n rest ctx, Reaches base accepted pending ((n, id) :: rest) ctx ∧
        l = (ctx.record id).line := by
  constructor
  · intro hmem
    unfold check at hmem
    split at hmem
    · simp at hmem
    · rename_i b hmain
      simp only at hmem
      split at hmem
      · simp [fail] at hmem
      · rename_i ctx₀ hpremises
        exact (Reaches.start (by rw [hmain]; rfl) hpremises).of_examining_mem hmem
  · rintro ⟨accepted, pending, n, rest, ctx, h, rfl⟩
    obtain ⟨notices, hcheck⟩ := h.exists_check_eq
    rw [hcheck]
    -- whatever becomes of the line, it is announced first
    refine List.mem_append_right _ ?_
    rw [checkLines]
    repeat' split
    all_goals exact List.mem_cons_self

/-- Where lines are accepted one after another from a moment on, the moment behind them is
    reached. -/
theorem Reaches.of_accepts {before : List (Int × LineId)}
    (h : Accepts ctx accepted pending before ctx')
    (hr : Reaches base accepted pending (before ++ rest) ctx) :
    ∃ accepted pending, Reaches base accepted pending rest ctx' := by
  induction h with
  | done => exact ⟨_, _, hr⟩
  | step hexamine hsymbols hcompile _ ih => exact ih (hr.step hexamine hsymbols hcompile)

/-- A check that accepts all lines from a moment on reaches each of them. -/
private theorem Accepts.exists_reaches (h : Accepts ctx accepted pending rest ctx')
    (hr : Reaches base accepted pending rest ctx) (hmem : (n, id) ∈ rest) :
    ∃ accepted pending rest ctx, Reaches base accepted pending ((n, id) :: rest) ctx ∧
      ctx.Admits id := by
  induction h with
  | done => cases hmem
  | step hexamine hsymbols hcompile _ ih =>
    -- the line is the one that comes up, or one of those after it
    rcases List.mem_cons.mp hmem with heq | hmem
    · cases heq
      exact ⟨_, _, _, _, hr, _, _, hexamine, hsymbols⟩
    · exact ih (hr.step hexamine hsymbols hcompile) hmem

/-- A check that answers yes reaches and accepts every line. -/
theorem exists_reaches_of_check (h : base.check.result = .ok true)
    (hmem : (n, id) ∈ base.lines.entries) :
    ∃ accepted pending rest ctx, Reaches base accepted pending ((n, id) :: rest) ctx ∧
      ctx.Admits id := by
  obtain ⟨hmain, ctx₀, hpremises, haccepts⟩ := check_eq_true.mp ⟨h, rfl⟩
  exact haccepts.exists_reaches (.start hmain hpremises) ((sortedLines_perm base).mem_iff.mpr hmem)

/-! ## What is known at a moment -/

/-- Taking the variables of the premises to be in use changes nothing else. -/
theorem usePremises_context (ctx : Context) (ids : List LineId) :
    ∃ constants, (ctx.usePremises ids).2 = { ctx with constants := constants } := by
  induction ids generalizing ctx with
  | nil => exact ⟨ctx.constants, rfl⟩
  | cons id ids ih =>
    simp only [usePremises, useSymbols]
    split
    · split
      · rename_i hsymbols
        split at hsymbols <;> cases hsymbols
        exact ⟨ctx.constants, rfl⟩
      · rename_i hsymbols
        split at hsymbols <;> cases hsymbols
        -- a premise only adds to what is in use
        exact ih (ctx.addConstants _)
    · exact ih ctx

/-- Finding the type of a block changes nothing else. -/
private theorem compile_context (ctx : Context) (b : BlockId) :
    ∃ types, (ctx.compile b).2 = { ctx with types := types } := by
  unfold compile
  simp only
  split
  · exact ⟨_, rfl⟩
  · exact ⟨ctx.types, rfl⟩

/-- Finding types changes nothing else. -/
theorem compileReady_context (ctx : Context) (accepted : List Int)
    (pending : List (List Int × BlockId)) :
    ∃ types, (ctx.compileReady accepted pending).2 = { ctx with types := types } := by
  induction pending generalizing ctx with
  | nil => exact ⟨ctx.types, rfl⟩
  | cons e pending ih =>
    obtain ⟨key, b⟩ := e
    simp only [compileReady]
    split
    · -- finding a type changes nothing but the types
      obtain ⟨types, htypes⟩ := compile_context ctx b
      split <;> rename_i ctx₁ hcompile <;> rw [hcompile] at htypes <;> subst htypes
      · exact ⟨types, rfl⟩
      · exact ih { ctx with types := types }
    · obtain ⟨types, htypes⟩ := ih ctx
      split <;> rename_i hready <;> rw [hready] at htypes
      · exact ⟨types, htypes⟩
      · exact ⟨types, htypes⟩

/-- What is done after a line was accepted: its symbols are taken to be in use, and types are
    found. -/
theorem exists_eq_of_useSymbols_compileReady {ctx₁ ctx₂ : Context} {f : Formula}
    {pending' : List (List Int × BlockId)} (hsymbols : ctx.useSymbols f = (.ok (), ctx₁))
    (hcompile : ctx₁.compileReady accepted pending = (.ok pending', ctx₂)) :
    ∃ s types, f.symbols = .ok s ∧ ctx₂ = { ctx.addConstants s.unbound with types := types } := by
  obtain ⟨s, hs, rfl⟩ := useSymbols_ok hsymbols
  -- what is found are types, which are all that changes after the symbols
  obtain ⟨types, htypes⟩ := compileReady_context (ctx.addConstants s.unbound) accepted pending
  rw [hcompile] at htypes
  exact ⟨s, types, hs, htypes⟩

/-- Lines and blocks are the same at every moment. -/
theorem Reaches.frame (h : Reaches base accepted pending rest ctx) : Frame base ctx := by
  induction h with
  | start hmain hpremises =>
    have hquiet := quiet_usePremises base (base.sortedLines.map Prod.snd)
    rw [hpremises] at hquiet
    exact hquiet.toFrame
  | step before hexamine hsymbols hcompile ih =>
    -- an examination, the symbols and the types, none of which touches lines or blocks
    obtain ⟨arg, hexamined⟩ := examined_of_ok hexamine
    obtain ⟨s, types, -, rfl⟩ := exists_eq_of_useSymbols_compileReady hsymbols hcompile
    exact ((ih.trans hexamined.toFrame).trans (quiet_addConstants _ _).toFrame).trans
      (frame_types _ types)

/-- The lines that have been accepted come before those that are still to come. -/
theorem Reaches.exists_sortedLines_eq (h : Reaches base accepted pending rest ctx) :
    ∃ done, base.sortedLines = done ++ rest ∧ accepted = (done.map Prod.fst).reverse := by
  induction h with
  | start => exact ⟨[], rfl, rfl⟩
  | @step _ _ _ _ _ _ _ n id rest _ _ _ _ ih =>
    obtain ⟨done, hsorted, rfl⟩ := ih
    exact ⟨done ++ [(n, id)], by rw [hsorted, List.append_assoc, List.singleton_append], by simp⟩

/-- A line that comes up is the one that its number stands for. -/
theorem Assembled.get?_of_reaches (ha : base.Assembled)
    (h : Reaches base accepted pending ((n, id) :: rest) ctx) : base.lines.get? n = some id := by
  obtain ⟨done, hsorted, -⟩ := h.exists_sortedLines_eq
  refine Table.get?_of_mem ha.lines_nodup ((sortedLines_perm base).mem_iff.mp ?_)
  rw [hsorted]
  exact List.mem_append_right _ List.mem_cons_self

/-- When a line comes up, the lines with lower numbers have been accepted, and no others. -/
theorem Assembled.mem_accepted_iff (ha : base.Assembled)
    (h : Reaches base accepted pending ((n, id) :: rest) ctx) {m : Int} :
    m ∈ accepted ↔ m < n ∧ ∃ j, base.lines.get? m = some j := by
  obtain ⟨done, hsorted, rfl⟩ := h.exists_sortedLines_eq
  have hpairs := ha.sortedLines_pairwise
  rw [hsorted, List.pairwise_append, List.pairwise_cons] at hpairs
  obtain ⟨-, ⟨hafter, -⟩, hbefore⟩ := hpairs
  -- a number is that of a line before, of the line itself or of one to come
  have hmem : ∀ e, e ∈ base.lines.entries ↔ e ∈ done ∨ e = (n, id) ∨ e ∈ rest := fun e => by
    rw [← (sortedLines_perm base).mem_iff, hsorted, List.mem_append, List.mem_cons]
  rw [List.mem_reverse]
  constructor
  · intro hm
    obtain ⟨⟨m, j⟩, hdone, rfl⟩ := List.mem_map.mp hm
    exact ⟨hbefore _ hdone _ List.mem_cons_self, j,
      Table.get?_of_mem ha.lines_nodup ((hmem _).mpr (.inl hdone))⟩
  · rintro ⟨hlt, j, hj⟩
    rcases (hmem _).mp (Table.mem_of_get? hj) with hdone | heq | hrest
    · exact List.mem_map_of_mem hdone
    · cases heq
      -- neither the line itself nor one to come has a lower number
      exact absurd hlt (Int.lt_irrefl _)
    · exact absurd (hafter _ hrest) (Int.not_lt.mpr (Int.le_of_lt hlt))

end Sequitur.Context
