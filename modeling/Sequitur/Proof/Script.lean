import Sequitur.Proof.Line

/-!
# Scripts

What a block is made of, in the order in which it is written: its own lines, and the blocks nested
in it with what they are made of.  A script is a list of items whose tail is spelled out in the
constructors, so that it is followed by plain recursion however deep the blocks are nested.
-/

namespace Sequitur

/-- The items of a block. -/
inductive Script where
  /-- No more items. -/
  | done
  /-- A line of the block itself, and the items after it. -/
  | line (l : Line) (rest : Script)
  /-- A nested block, and the items after it. -/
  | block (inner rest : Script)
  deriving DecidableEq, Repr, Inhabited

namespace Script

/-- The items of one script followed by those of another. -/
def append : Script → Script → Script
  | done, t => t
  | line l s, t => line l (s.append t)
  | block b s, t => block b (s.append t)

/-- The lines of the block itself. -/
def own : Script → List Line
  | done => []
  | line l s => l :: s.own
  | block _ s => s.own

end Script

end Sequitur
