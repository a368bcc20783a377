import Sequitur.Proof.Context

/-!
# What a line depends on

A line depends on the lines that it cites and on what those depend on.  The search follows every
chain of citations; a chain that is longer than there are lines runs in a circle.
-/

namespace Sequitur.Context

/-- The line that a number stands for. -/
def line? (ctx : Context) (n : Int) : Option Line :=
  (ctx.lines.get? n).map fun id => (ctx.record id).line

/-- The numbers cited by chains of at most `fuel` lines from `n`, a number for each chain. -/
def citedFrom (ctx : Context) : Nat → Int → Except Fault (List Int)
  | 0, _ => .error .circularCitations
  | fuel + 1, n =>
    match ctx.line? n with
    | none => .error (.missingLine n)
    | some line =>
      -- a line that is cited twice is followed once
      let cited := (sortNumbers line.reason.citations).eraseDups
      match cited.mapM (citedFrom ctx fuel) with
      | .error f => .error f
      | .ok further => .ok (cited ++ further.flatten)

/-- The numbers of all lines that the line with number `n` depends on, sorted. -/
def dependences (ctx : Context) (n : Int) : Except Fault (List Int) :=
  -- a chain without a circle has no number twice
  match ctx.citedFrom (ctx.lines.size + 1) n with
  | .error f => .error f
  | .ok ns => .ok (sortNumbers ns).eraseDups

end Sequitur.Context
