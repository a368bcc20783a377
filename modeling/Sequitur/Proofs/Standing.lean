import Sequitur.Proofs.Assembly
import Sequitur.Proofs.Meetings
import Sequitur.Report

/-!
# Checking leaves the standing bindings alone

The standing bindings outlive every match, so a check could hand on something to the next one.  It
does not.  All formulas that a check matches are matched with the patterns of the laws and of the
excluded middle.  No such pattern mentions a predicate, so no arguments of predicates ever meet; and
the pattern of the excluded middle, which is matched without a table for quantified variables, has
no quantifier either.

From matches the frame is carried on to replacements, to single lines, to runs, and to whole files,
whatever they end with.

## Key results

- `Unifier.standing_settleAll`: meetings that spare the standing table leave it as it is
- `Argument.standing_typecheck`, `Context.standing_check`: so do arguments and runs
- `Report.standing_checking_files`: so does checking files one after another
-/

namespace Sequitur

/-! ## Matches that spare the standing table -/

/-- Whether the meeting is settled without the standing table.  Quantified variables need it unless
    they have a table of their own. -/
def Meeting.spares (ownNames : Bool) : Meeting → Bool
  | argument _ _ => false
  | quantified _ _ => ownNames
  | hole _ _ | mismatch => true

/-- Whether a pattern brings about only meetings that are settled without the standing table. -/
def Formula.spares (ownNames : Bool) : Formula → Bool
  | pred _ _ => false
  | term _ => ownNames
  | all _ p | ex _ p => ownNames && p.spares ownNames
  | conj p q | disj p q | imp p q => p.spares ownNames && q.spares ownNames
  | truth _ | atom _ | hole _ => true

namespace Unifier

/-- A meeting that spares the standing table leaves it as it is. -/
private theorem standing_settle {s : Unifier} {m : Meeting} (h : m.spares s.names.isSome) :
    (s.settle m).2.standing = s.standing ∧ (s.settle m).2.names.isSome = s.names.isSome := by
  cases m with
  | hole k f => exact ⟨rfl, rfl⟩
  | quantified v w =>
    obtain ⟨t, ht⟩ := Option.isSome_iff_exists.mp h
    simp only [settle, quantified, ht]
    exact ⟨trivial, rfl⟩
  | argument v w => cases h
  | mismatch => exact ⟨rfl, rfl⟩

theorem standing_settleAll {s : Unifier} {ms : List Meeting}
    (h : ∀ m ∈ ms, m.spares s.names.isSome) : (s.settleAll ms).2.standing = s.standing := by
  induction ms generalizing s with
  | nil => rfl
  | cons m ms ih =>
    obtain ⟨hstanding, hnames⟩ := standing_settle (h m List.mem_cons_self)
    rw [settleAll]
    rcases hm : s.settle m with ⟨_ | _, s'⟩
    · rw [hm] at hstanding
      exact hstanding
    · rw [hm] at hstanding hnames
      -- there is a table for quantified variables afterwards if there was one before
      have hrest : ∀ m ∈ ms, m.spares s'.names.isSome := fun m' hm' => by
        rw [hnames]
        exact h m' (List.mem_cons_of_mem m hm')
      exact (ih hrest).trans hstanding

end Unifier

namespace Formula

variable {ownNames : Bool}

/-- What meets a pattern that spares the standing table spares it as well. -/
private theorem spares_of_mem_meetings {p q : Formula} (hq : q.spares ownNames) {m : Meeting}
    (hm : m ∈ p.meetings q) : m.spares ownNames := by
  fun_induction meetings p q with
  | case1 | case2 | case12 | case14 | case15 =>
    -- holes and differing heads need no table
    cases List.mem_singleton.mp hm
    rfl
  | case3 v w =>
    cases List.mem_singleton.mp hm
    exact hq
  | case4 a b c d iha ihb
  | case5 a b c d iha ihb
  | case6 a b c d iha ihb =>
    obtain ⟨hc, hd⟩ := Bool.and_eq_true_iff.mp hq
    exact (List.mem_append.mp hm).elim (iha hc) (ihb hd)
  | case7 v p w q ih
  | case8 v p w q ih =>
    obtain ⟨hown, hbody⟩ := Bool.and_eq_true_iff.mp hq
    cases hm with
    | head => exact hown
    | tail _ hm => exact ih hbody hm
  -- a predicate is not spared, so there is none in the pattern
  | case9 | case10 => cases hq
  | case11 | case13 => cases hm

/-- A match that is given a table for formula holes leaves the standing tables as they are, if the
    pattern on the right spares them. -/
private theorem standing_matchIn {standing : Bindings} {given : Given} {p q : Formula}
    (hgiven : given.formulas.isSome) (hq : q.spares given.names.isSome) :
    (matchIn standing given p q).standing = standing := by
  have hkept := Unifier.standing_settleAll
    (s := ⟨given.formulas.getD standing.formulas, given.names, standing.names⟩)
    fun m hm => spares_of_mem_meetings (p := p) hq hm
  simp only [matchIn, unify_eq_settleAll, hkept, hgiven, if_true]

private theorem standing_isExcludedMiddle (standing : Bindings) (p : Formula) :
    (p.isExcludedMiddle standing).2 = standing := by
  -- both orders of the excluded middle have holes for formulas and nothing else
  have hfirst : (matchVariablesStanding standing p (disj (hole "a") (neg (hole "a")))).standing =
      standing := standing_matchIn rfl rfl
  have hsecond : (matchVariablesStanding standing p (disj (neg (hole "a")) (hole "a"))).standing =
      standing := standing_matchIn rfl rfl
  simp only [isExcludedMiddle, hfirst]
  split
  · rfl
  · exact hsecond

end Formula

/-! ## Lines -/

namespace Law

/-- No law mentions a predicate. -/
private theorem spares_left (law : Law) : law.equivalence.left.spares true := by
  cases law <;> rfl

private theorem spares_right (law : Law) : law.equivalence.right.spares true := by
  cases law <;> rfl

end Law

namespace Equivalence

variable {e : Equivalence}

private theorem standing_instantiate {standing : Bindings} {old new : Formula}
    (hl : e.left.spares true) (hr : e.right.spares true) :
    (e.instantiate standing old new).standing = standing := by
  have hfirst : (Formula.matchWith standing {} old e.left).standing = standing :=
    Formula.standing_matchIn rfl hl
  by_cases h : (Formula.matchWith standing {} old e.left).succeeded
  · -- the second side is matched only after the first has been
    simp only [instantiate, h, if_true, hfirst]
    exact Formula.standing_matchIn rfl hr
  · simp only [instantiate, h]
    exact hfirst

private theorem standing_replace {standing : Bindings} {old new : Formula} (hl : e.left.spares true)
    (hr : e.right.spares true) : (e.replace standing old new).2 = standing := by
  have hforward : ∀ {s t}, (e.instantiate standing s t).standing = standing :=
    standing_instantiate hl hr
  -- the second reading starts from what the first has left, which is what was there before
  have hbackward : ∀ {s t}, (e.swap.instantiate standing s t).standing = standing :=
    standing_instantiate hr hl
  unfold replace
  split
  · rfl
  · split
    · rfl
    · simp only [hforward]
      split
      · rfl
      · split <;> exact hbackward

end Equivalence

/-- An argument is judged without a trace in the standing bindings. -/
theorem Argument.standing_typecheck (standing : Bindings) (expected : Formula) (arg : Argument) :
    (arg.typecheck standing expected).2 = standing := by
  cases arg with
  | replacement law old =>
    have hkept : (law.equivalence.replace standing old.formula expected).2 = standing :=
      Equivalence.standing_replace law.spares_left law.spares_right
    rw [typecheck]
    rcases hr : law.equivalence.replace standing old.formula expected with ⟨_ | _, b⟩
    · rw [hr] at hkept
      exact hkept
    · rw [hr] at hkept
      exact hkept
  | _ => rfl

namespace Context

private theorem standing_verifyUI (ctx : Context) (id : LineId) (q : Cited) :
    (ctx.verifyUI id q).2.standing = ctx.standing := by
  unfold verifyUI
  split
  · split
    · rfl
    · split <;> rfl
  · rfl

private theorem standing_verifyUG (ctx : Context) (id : LineId) (f : Cited) :
    (ctx.verifyUG id f).2.standing = ctx.standing := by
  rw [verifyUG_eq]
  split
  · split
    · rfl
    · split
      · split <;> rfl
      · rfl
  · rfl

private theorem standing_verifyEI (ctx : Context) (id : LineId) (q : Cited) :
    (ctx.verifyEI id q).2.standing = ctx.standing := by
  unfold verifyEI
  split
  · split
    · rfl
    · split <;> rfl
  · rfl

private theorem standing_verifyEG (ctx : Context) (id : LineId) (f : Cited) :
    (ctx.verifyEG id f).2.standing = ctx.standing := by
  unfold verifyEG
  simp only
  split
  · split <;> rfl
  · rfl

theorem standing_verifyFormulas (ctx : Context) (id : LineId) (arg : Argument) :
    (ctx.verifyFormulas id arg).2.standing = ctx.standing := by
  have hkept := arg.standing_typecheck ctx.standing (ctx.record id).line.formula
  simp only [verifyFormulas]
  rcases hc : arg.typecheck ctx.standing (ctx.record id).line.formula with ⟨_ | _ | _, b⟩
  all_goals rw [hc] at hkept; exact hkept

private theorem standing_verify (ctx : Context) (id : LineId) (arg : Argument) :
    (ctx.verify id arg).2.standing = ctx.standing := by
  unfold verify
  split
  · exact standing_verifyUI ctx id _
  · exact standing_verifyUG ctx id _
  · exact standing_verifyEI ctx id _
  · exact standing_verifyEG ctx id _
  · exact standing_verifyFormulas ctx id _

/-- So does an examination, whatever comes of it. -/
theorem standing_examine (ctx : Context) (id : LineId) :
    (ctx.examine id).2.standing = ctx.standing := by
  unfold examine
  split
  · rfl
  · exact standing_verify _ id _

/-! ## Runs -/

private theorem standing_useSymbols (ctx : Context) (f : Formula) :
    (ctx.useSymbols f).2.standing = ctx.standing := by
  unfold useSymbols
  split <;> rfl

private theorem standing_usePremises (ctx : Context) (ids : List LineId) :
    (ctx.usePremises ids).2.standing = ctx.standing := by
  induction ids generalizing ctx with
  | nil => rfl
  | cons id ids ih =>
    have huse := ctx.standing_useSymbols (ctx.record id).line.formula
    simp only [usePremises]
    split
    · rcases hs : ctx.useSymbols (ctx.record id).line.formula with ⟨_ | _, ctx'⟩
      · rw [hs] at huse
        exact huse
      · rw [hs] at huse
        exact (ih ctx').trans huse
    · exact ih ctx

private theorem standing_compile (ctx : Context) (b : BlockId) :
    (ctx.compile b).2.standing = ctx.standing := by
  unfold compile
  simp only
  split <;> rfl

private theorem standing_compileReady (ctx : Context) (accepted : List Int)
    (pending : List (List Int × BlockId)) :
    (ctx.compileReady accepted pending).2.standing = ctx.standing := by
  induction pending generalizing ctx with
  | nil => rfl
  | cons e pending ih =>
    obtain ⟨key, b⟩ := e
    simp only [compileReady]
    split
    · -- the block is complete, and the others are looked at after it
      have hcompile := ctx.standing_compile b
      rcases hc : ctx.compile b with ⟨_ | _, ctx'⟩
      · rw [hc] at hcompile
        exact hcompile
      · rw [hc] at hcompile
        exact (ih ctx').trans hcompile
    · have hrest := ih ctx
      rcases hc : ctx.compileReady accepted pending with ⟨_ | _, ctx'⟩
      all_goals rw [hc] at hrest; exact hrest

private theorem standing_fail (ctx : Context) (e : Failure) :
    (ctx.fail e).context.standing = ctx.standing := by
  cases e <;> rfl

private theorem standing_checkLines (ctx : Context) (accepted : List Int)
    (pending : List (List Int × BlockId)) (rest : List (Int × LineId)) :
    (ctx.checkLines accepted pending rest).context.standing = ctx.standing := by
  induction rest generalizing ctx accepted pending with
  | nil => rfl
  | cons e rest ih =>
    obtain ⟨n, id⟩ := e
    -- each of the three steps may end the run, in the context in which it leaves off
    have hexamine := ctx.standing_examine id
    rcases he : ctx.examine id with ⟨_ | _, ctx₁⟩
    · rw [he] at hexamine
      simp only [checkLines, he]
      exact (standing_fail ctx₁ _).trans hexamine
    rw [he] at hexamine
    have huse := (ctx₁.standing_useSymbols (ctx.record id).line.formula).trans hexamine
    rcases hs : ctx₁.useSymbols (ctx.record id).line.formula with ⟨_ | _, ctx₂⟩
    · rw [hs] at huse
      simp only [checkLines, he, hs]
      exact (standing_fail ctx₂ _).trans huse
    rw [hs] at huse
    have hcompile := (ctx₂.standing_compileReady (n :: accepted) pending).trans huse
    rcases hc : ctx₂.compileReady (n :: accepted) pending with ⟨_ | pending', ctx₃⟩
    · rw [hc] at hcompile
      simp only [checkLines, he, hs, hc]
      exact (standing_fail ctx₃ _).trans hcompile
    rw [hc] at hcompile
    simp only [checkLines, he, hs, hc]
    exact (ih ctx₃ (n :: accepted) pending').trans hcompile

/-- A run leaves the standing bindings alone, whatever its answer is. -/
theorem standing_check (ctx : Context) : ctx.check.context.standing = ctx.standing := by
  unfold check
  split
  · rfl
  · have hpremises := ctx.standing_usePremises (ctx.sortedLines.map Prod.snd)
    simp only
    rcases hp : ctx.usePremises (ctx.sortedLines.map Prod.snd) with ⟨_ | _, ctx'⟩
    · rw [hp] at hpremises
      exact (standing_fail ctx' _).trans hpremises
    · rw [hp] at hpremises
      exact (standing_checkLines ctx' _ _ _).trans hpremises

/-- Adding blocks leaves them alone, too. -/
theorem standing_addBlocks (ctx : Context) (bs : List (List Line)) :
    (ctx.addBlocks bs).standing = ctx.standing := by
  induction bs using List.reverseRecOn with
  | nil => rfl
  | append_singleton bs ls ih => rw [addBlocks_concat, addBlock_eq, ih]

private theorem standing_addText (ctx : Context) (text : String) :
    (ctx.addText text).2.standing = ctx.standing := by
  unfold addText
  simp only
  split <;> exact standing_addBlocks ctx _

end Context

/-! ## Files -/

namespace Report

private theorem standing_dropExcludedMiddle (standing : Bindings) (fs : List Formula) :
    (dropExcludedMiddle standing fs).2 = standing := by
  induction fs generalizing standing with
  | nil => rfl
  | cons f fs ih =>
    simp only [dropExcludedMiddle]
    rw [ih, f.standing_isExcludedMiddle]

private theorem standing_obligations (hypotheses results : List Formula) (standing : Bindings)
    (goals : List Formula) :
    (obligations hypotheses results standing goals).standing = standing := by
  induction goals with
  | nil => rfl
  | cons f goals ih =>
    simp only [obligations]
    split
    · exact ih
    · rfl

private theorem standing_conclude (ctx : Context) (goals : List Formula) :
    (conclude ctx goals).standing = ctx.standing := by
  unfold conclude
  split
  · rfl
  · split
    · rfl
    · simp only [standing_obligations, standing_dropExcludedMiddle]

private theorem standing_ofProof (standing : Bindings) (goals : List Formula)
    (lines : List String) : (ofProof standing goals lines).standing = standing := by
  have hread := ({ standing := standing } : Context).standing_addText
    (String.intercalate "\n" (Outline.toBraces lines))
  -- by `delta`, since the equation of `ofProof` would have the reader unfolded
  delta ofProof
  rcases ht : ({ standing := standing } : Context).addText
    (String.intercalate "\n" (Outline.toBraces lines)) with ⟨_ | e, ctx⟩
  · rw [ht] at hread
    simp only [ht]
    -- the text is read, and the report is made of what the check has left
    have hcheck := ctx.standing_check.trans hread
    split
    · exact hcheck
    · exact hcheck
    · exact (standing_conclude _ goals).trans hcheck
  · rw [ht] at hread
    simp only [ht]
    exact hread

/-- Checking a file leaves the standing bindings alone. -/
private theorem standing_ofFile (standing : Bindings) (file : String) :
    (ofFile standing file).standing = standing := by
  unfold ofFile
  split
  · rfl
  · split
    · rfl
    · exact standing_ofProof standing _ _

/-- The standing bindings after files are checked one after another. -/
def standingAfter (standing : Bindings) (files : List String) : Bindings :=
  files.foldl (fun b file => (ofFile b file).standing) standing

/-- Checking files one after another leaves the standing bindings alone, whatever the files hold and
    however the checks end.  So none are left behind if there were none at the start. -/
theorem standing_checking_files (standing : Bindings) (files : List String) :
    standingAfter standing files = standing := by
  induction files with
  | nil => rfl
  | cons file files ih =>
    rw [standingAfter, List.foldl_cons, standing_ofFile]
    exact ih

end Report

end Sequitur
