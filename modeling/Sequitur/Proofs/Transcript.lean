import Sequitur.Proofs.Moments

/-!
# What the transcript of a check tells

A run announces each line and then tells that it was accepted, or ends.  The lines that were
accepted can be read off the transcript (`Run.acceptances`): they are the first ones in the order of
their numbers, up to the line at which the run ends.

A run that gets past the premises has a last moment, after which it does not go on.  Its answer is
decided there.

## Key results

- `Reaches.exists_acceptances_eq`: what has been accepted at a moment, and what is accepted later
- `mem_acceptances_check_iff`: a line is told to be accepted when it comes up and is admitted
- `exists_last_moment`: every check that gets past the premises has a last moment
-/

namespace Sequitur

/-- The lines that are told to be accepted: each was announced and found in order. -/
def Notice.acceptances : List Notice → List (LineId × Line)
  | .examining id l :: .accepted :: ns => (id, l) :: acceptances ns
  | _ :: ns => acceptances ns
  | [] => []

/-- The lines that a run accepts, in its order. -/
def Run.acceptances (r : Run) : List (LineId × Line) := Notice.acceptances r.notices

@[simp] theorem Run.acceptances_after_accepted (r : Run) (id : LineId) (l : Line) :
    (r.after [.examining id l, .accepted]).acceptances = (id, l) :: r.acceptances := rfl

namespace Context

@[simp] theorem acceptances_fail (ctx : Context) (e : Failure) : (ctx.fail e).acceptances = [] := by
  cases e <;> rfl

@[simp] theorem acceptances_fail_after (ctx : Context) (e : Failure) (id : LineId) (l : Line) :
    ((ctx.fail e).after [.examining id l]).acceptances = [] := by
  cases e <;> rfl

variable {base ctx ctx' : Context} {accepted : List Int} {pending : List (List Int × BlockId)}
  {rest : List (Int × LineId)} {n : Int} {id : LineId}

/-- The lines of a list of numbered places, as a transcript tells them. -/
def told (base : Context) (es : List (Int × LineId)) : List (LineId × Line) :=
  es.map fun e => (e.2, (base.record e.2).line)

/-- At a moment the lines before those to come have been accepted; the others are those that the
    rest of the run accepts. -/
theorem Reaches.exists_acceptances_eq (h : Reaches base accepted pending rest ctx) :
    ∃ done, base.sortedLines = done ++ rest ∧ accepted = (done.map Prod.fst).reverse ∧
      base.check.acceptances =
        base.told done ++ (ctx.checkLines accepted pending rest).acceptances := by
  induction h with
  | start hmain hpremises =>
    obtain ⟨b, hb⟩ := Option.isSome_iff_exists.mp hmain
    refine ⟨[], rfl, rfl, ?_⟩
    rw [check, hb]
    simp only [hpremises]
    rfl
  | @step ctx _ _ _ _ _ _ n id rest before hexamine hsymbols hcompile ih =>
    obtain ⟨done, hsorted, rfl, htold⟩ := ih
    -- the line that is accepted goes over from what is to come to what is done
    refine ⟨done ++ [(n, id)], by rw [hsorted, List.append_assoc, List.singleton_append],
      by simp, ?_⟩
    simp only [checkLines, hexamine, hsymbols, hcompile, Run.acceptances_after_accepted] at htold
    rw [htold, before.frame.line, told, told, List.map_append, List.append_assoc]
    rfl

/-- A line that is admitted when it comes up is the next to be told. -/
theorem Admits.exists_acceptances_eq (h : ctx.Admits id) (accepted : List Int)
    (pending : List (List Int × BlockId)) (n : Int) (rest : List (Int × LineId)) :
    ∃ more, (ctx.checkLines accepted pending ((n, id) :: rest)).acceptances =
      (id, (ctx.record id).line) :: more := by
  obtain ⟨ctx₁, ctx₂, hexamine, hsymbols⟩ := h
  simp only [checkLines, hexamine, hsymbols]
  split <;> exact ⟨_, rfl⟩

private theorem Reaches.of_mem_acceptances (h : Reaches base accepted pending rest ctx) {l : Line}
    (hmem : (id, l) ∈ (ctx.checkLines accepted pending rest).acceptances) :
    ∃ accepted pending n rest ctx, Reaches base accepted pending ((n, id) :: rest) ctx ∧
      ctx.Admits id ∧ l = (ctx.record id).line := by
  induction rest generalizing ctx accepted pending with
  | nil => cases hmem
  | cons e rest ih =>
    obtain ⟨m, j⟩ := e
    simp only [checkLines] at hmem
    split at hmem
    · simp at hmem
    · rename_i ctx₁ hexamine
      split at hmem
      · simp at hmem
      · rename_i ctx₂ hsymbols
        -- the line that comes up now is admitted, so it is told first
        have hadmits : ctx.Admits j := ⟨ctx₁, ctx₂, hexamine, hsymbols⟩
        split at hmem
        · rw [Run.acceptances_after_accepted, acceptances_fail, List.mem_singleton] at hmem
          cases hmem
          exact ⟨accepted, pending, m, rest, ctx, h, hadmits, rfl⟩
        · rename_i pending' ctx₃ hcompile
          rw [Run.acceptances_after_accepted, List.mem_cons] at hmem
          rcases hmem with heq | hmem
          · cases heq
            exact ⟨accepted, pending, m, rest, ctx, h, hadmits, rfl⟩
          · exact ih (h.step hexamine hsymbols hcompile) hmem

/-- A line is told to be accepted when it comes up in the check and is admitted. -/
theorem mem_acceptances_check_iff {l : Line} :
    (id, l) ∈ base.check.acceptances ↔
      ∃ accepted pending n rest ctx, Reaches base accepted pending ((n, id) :: rest) ctx ∧
        ctx.Admits id ∧ l = (ctx.record id).line := by
  constructor
  · intro hmem
    -- before the lines come up, nothing is told to be accepted
    unfold check at hmem
    split at hmem
    · cases hmem
    · rename_i b hmain
      simp only at hmem
      split at hmem
      · simp at hmem
      · rename_i ctx₀ hpremises
        exact (Reaches.start (by rw [hmain]; rfl) hpremises).of_mem_acceptances hmem
  · rintro ⟨accepted, pending, n, rest, ctx, h, hadmits, rfl⟩
    -- the line is the first of those that the rest of the run accepts
    obtain ⟨done, -, -, htold⟩ := h.exists_acceptances_eq
    obtain ⟨more, hmore⟩ := hadmits.exists_acceptances_eq accepted pending n rest
    rw [htold, hmore]
    exact List.mem_append_right _ List.mem_cons_self

/-! ## The last moment -/

/-- The line `id`, whose number is `n`, is accepted when it comes up, and the run goes on with the
    context `ctx'` and the blocks `pending'` waiting. -/
def Advances (ctx : Context) (accepted : List Int) (pending : List (List Int × BlockId)) (n : Int)
    (id : LineId) (pending' : List (List Int × BlockId)) (ctx' : Context) : Prop :=
  ∃ ctx₁ ctx₂, ctx.examine id = (.ok (), ctx₁) ∧
    ctx₁.useSymbols (ctx.record id).line.formula = (.ok (), ctx₂) ∧
    ctx₂.compileReady (n :: accepted) pending = (.ok pending', ctx')

/-- When the line `id`, whose number is `n`, comes up, the run goes on after it. -/
def Proceeds (ctx : Context) (accepted : List Int) (pending : List (List Int × BlockId)) (n : Int)
    (id : LineId) : Prop :=
  ∃ pending' ctx', ctx.Advances accepted pending n id pending' ctx'

/-- The next moment, when the run goes on. -/
theorem Reaches.advance {pending' : List (List Int × BlockId)}
    (h : Reaches base accepted pending ((n, id) :: rest) ctx)
    (hadvances : ctx.Advances accepted pending n id pending' ctx') :
    Reaches base (n :: accepted) pending' rest ctx' := by
  obtain ⟨ctx₁, ctx₂, hexamine, hsymbols, hcompile⟩ := hadvances
  exact h.step hexamine hsymbols hcompile

/-- What a run is that goes on. -/
theorem Advances.checkLines_eq {pending' : List (List Int × BlockId)}
    (h : ctx.Advances accepted pending n id pending' ctx') (rest : List (Int × LineId)) :
    ctx.checkLines accepted pending ((n, id) :: rest) =
      (ctx'.checkLines (n :: accepted) pending' rest).after
        [.examining id (ctx.record id).line, .accepted] := by
  obtain ⟨ctx₁, ctx₂, hexamine, hsymbols, hcompile⟩ := h
  simp only [checkLines, hexamine, hsymbols, hcompile]

/-- From every moment on there is one after which the run does not go on. -/
private theorem Reaches.exists_last (h : Reaches base accepted pending rest ctx) :
    ∃ accepted pending rest ctx, Reaches base accepted pending rest ctx ∧
      ∀ n id rest', rest = (n, id) :: rest' → ¬ ctx.Proceeds accepted pending n id := by
  induction rest generalizing ctx accepted pending with
  | nil => exact ⟨accepted, pending, [], ctx, h, by simp⟩
  | cons e rest ih =>
    obtain ⟨n, id⟩ := e
    by_cases hgoes : ctx.Proceeds accepted pending n id
    · obtain ⟨pending', ctx', hadvances⟩ := hgoes
      exact ih (h.advance hadvances)
    · refine ⟨accepted, pending, (n, id) :: rest, ctx, h, ?_⟩
      rintro n' id' rest' heq
      cases heq
      exact hgoes

/-- A check that gets past the premises has a last moment. -/
theorem exists_last_moment {ctx₀ : Context} (hmain : base.main.isSome)
    (hpremises : base.usePremises (base.sortedLines.map Prod.snd) = (.ok (), ctx₀)) :
    ∃ accepted pending rest ctx, Reaches base accepted pending rest ctx ∧
      ∀ n id rest', rest = (n, id) :: rest' → ¬ ctx.Proceeds accepted pending n id :=
  (Reaches.start hmain hpremises).exists_last

/-- A run in which no line is left answers yes. -/
theorem Reaches.check_of_done (h : Reaches base accepted pending [] ctx) :
    base.check.result = .ok true ∧ base.check.context = ctx := by
  obtain ⟨notices, hcheck⟩ := h.exists_check_eq
  rw [hcheck]
  exact ⟨rfl, rfl⟩

/-- A run ends with the failure of the first line that does not pass its examination. -/
theorem Reaches.check_of_error (h : Reaches base accepted pending ((n, id) :: rest) ctx)
    {e : Failure} (hexamine : ctx.examine id = (.error e, ctx')) :
    base.check.result = (ctx'.fail e).result ∧ base.check.context = ctx' := by
  obtain ⟨notices, hcheck⟩ := h.exists_check_eq
  simp only [checkLines, hexamine] at hcheck
  rw [hcheck]
  cases e <;> exact ⟨rfl, rfl⟩

end Context

end Sequitur
