import Sequitur.Proof.Examination

/-!
# Checking a context

All lines are examined in the order of their numbers.  Before that, the variables of the premises
that no quantifier binds are taken to be in use; each accepted line adds its own.  After each
accepted line every block whose numbers have all been accepted gets its type.

The first refusal ends the run with the answer no; a fault breaks it off.  What happens is told in
notices, and `Run.output` is what they look like.
-/

namespace Sequitur

/-- Something that happens in a run. -/
inductive Notice where
  /-- There is nothing to check. -/
  | nothingAdded
  /-- The line at place `id` comes up. -/
  | examining (id : LineId) (line : Line)
  /-- The line is accepted. -/
  | accepted
  /-- The run ends with a refusal. -/
  | refused (r : Refusal)
  deriving DecidableEq, Repr, Inhabited

/-- The written form of a notice. -/
def Notice.text : Notice → String
  | nothingAdded => "** No proofs added! **\n"
  | examining _ l => l.text ++ "\t"
  | accepted => "✓\n"
  | refused r => "✗\nError: " ++ r.message ++ "\n"

/-- A run of the checker. -/
structure Run where
  /-- What happened, in order. -/
  notices : List Notice := []
  /-- The answer, or what broke the run off. -/
  result : Except Fault Bool
  /-- The context after the run. -/
  context : Context

/-- What a run writes. -/
def Run.output (r : Run) : String := String.join (r.notices.map Notice.text)

/-- Something happened before the run went on. -/
def Run.after (notices : List Notice) (r : Run) : Run := { r with notices := notices ++ r.notices }

namespace Context

/-- End a run because a step did not succeed. -/
def fail (ctx : Context) : Failure → Run
  | .refusal r => ⟨[.refused r], .ok false, ctx⟩
  | .fault f => ⟨[], .error f, ctx⟩

/-- Take the variables of a formula that no quantifier binds to be in use. -/
def useSymbols (ctx : Context) (f : Formula) : Except Refusal Unit × Context :=
  match f.symbols with
  | .error r => (.error r, ctx)
  | .ok s => (.ok (), ctx.addConstants s.unbound)

/-- Take the variables of the premises among these lines to be in use. -/
def usePremises (ctx : Context) : List LineId → Except Refusal Unit × Context
  | [] => (.ok (), ctx)
  | id :: ids =>
    let line := (ctx.record id).line
    if line.isPremise then
      match ctx.useSymbols line.formula with
      | (.error r, ctx) => (.error r, ctx)
      | (.ok _, ctx) => usePremises ctx ids
    -- hypotheses do not count as premises here
    else usePremises ctx ids

/-- Find the types of the blocks of `pending` whose numbers have all been accepted, and return the
    others. -/
def compileReady (ctx : Context) (accepted : List Int) :
    List (List Int × BlockId) → Except Fault (List (List Int × BlockId)) × Context
  | [] => (.ok [], ctx)
  | (key, b) :: pending =>
    -- by number: the line that was accepted may be one of another block
    if key.all fun n => n ∈ accepted then
      match ctx.compile b with
      | (.error f, ctx) => (.error f, ctx)
      | (.ok _, ctx) => compileReady ctx accepted pending
    else
      match compileReady ctx accepted pending with
      | (.error f, ctx) => (.error f, ctx)
      | (.ok rest, ctx) => (.ok ((key, b) :: rest), ctx)

/-- Examine lines one after another. -/
def checkLines (ctx : Context) (accepted : List Int) (pending : List (List Int × BlockId)) :
    List (Int × LineId) → Run
  | [] => ⟨[], .ok true, ctx⟩
  | (n, id) :: rest =>
    let line := (ctx.record id).line
    match ctx.examine id with
    | (.error e, ctx) => (ctx.fail e).after [.examining id line]
    | (.ok _, ctx) =>
      -- after the examination, so that a choice may be of a variable of the line itself
      match ctx.useSymbols line.formula with
      | (.error r, ctx) => (ctx.fail (.refusal r)).after [.examining id line]
      | (.ok _, ctx) =>
        match ctx.compileReady (n :: accepted) pending with
        -- the line has been told to be accepted by now
        | (.error f, ctx) => (ctx.fail (.fault f)).after [.examining id line, .accepted]
        | (.ok pending, ctx) =>
          (checkLines ctx (n :: accepted) pending rest).after [.examining id line, .accepted]

/-- The current lines in the order of their numbers. -/
def sortedLines (ctx : Context) : List (Int × LineId) := sortBy Prod.fst ctx.lines.entries

/-- Check a context. -/
def check (ctx : Context) : Run :=
  match ctx.main with
  | none => ⟨[.nothingAdded], .ok false, ctx⟩
  | some _ =>
    let lines := ctx.sortedLines
    match ctx.usePremises (lines.map Prod.snd) with
    | (.error r, ctx) => ctx.fail (.refusal r)
    -- nothing counts as accepted from an earlier run
    | (.ok _, ctx) => ctx.checkLines [] ctx.registered.entries lines

end Context

end Sequitur
