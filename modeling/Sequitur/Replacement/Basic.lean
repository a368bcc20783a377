import Sequitur.Formula.Difference
import Sequitur.Matching
import Sequitur.Replacement.Law

/-!
# Replacement by an equivalence

A step from one formula to another is an application of an equivalence when the place at which the
two differ is an instance of it, in either direction.  A step that changes nothing needs no rule.
-/

namespace Sequitur

/-- How a replacement is justified. -/
inductive Replacement where
  /-- The two formulas are the same. -/
  | unchanged
  /-- The equivalence holds at the place of the difference, under these bindings. -/
  | applied (bindings : Bindings)
  deriving DecidableEq, Repr, Inhabited

namespace Equivalence

/-- Match the left pattern with `old` and then the right one with `new`, from empty tables. -/
def instantiate (e : Equivalence) (standing : Bindings) (old new : Formula) : Match :=
  let first := Formula.matchWith standing {} old e.left
  if first.succeeded then Formula.matchWith first.standing first.bindings new e.right else first

/-- Justify the step from `old` to `new`.  The equivalence is tried as it stands and then from right
    to left; a refusal names it in the second reading.  With the answer come the standing bindings,
    which the first reading may have changed for the second. -/
def replace (e : Equivalence) (standing : Bindings) (old new : Formula) :
    Except Refusal Replacement × Bindings :=
  if old = new then (.ok .unchanged, standing)
  else
    match old.difference new with
    | .error r => (.error r, standing)
    | .ok (s, t) =>
      let forward := e.instantiate standing s t
      if forward.succeeded then (.ok (.applied forward.bindings), forward.standing)
      else
        -- the bindings of the first reading are given up, but not what it left standing
        let backward := e.swap.instantiate forward.standing s t
        if backward.succeeded then (.ok (.applied backward.bindings), backward.standing)
        else (.error (.ruleFails e.right e.left old new), backward.standing)

end Equivalence

end Sequitur
