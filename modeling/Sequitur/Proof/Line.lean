import Sequitur.Formula.Basic
import Sequitur.Text.Listing

/-!
# Lines of a proof

A line has a number, a formula and the reason given for it: the name of a rule and the numbers of
the lines that it cites.  What the name means is decided when the line is checked.
-/

namespace Sequitur

/-- The reason given for a line. -/
structure Reason where
  rule : String
  citations : List Int := []
  deriving DecidableEq, Repr, Inhabited

/-- The written form of a reason. -/
def Reason.text (r : Reason) : String := r.rule ++ " " ++ Text.bracketed r.citations

/-- A line of a proof. -/
structure Line where
  number : Int
  formula : Formula
  reason : Reason
  deriving DecidableEq, Repr, Inhabited

/-- The written form of a line. -/
def Line.text (l : Line) : String :=
  toString l.number ++ ". " ++ l.formula.text ++ " " ++ l.reason.text

/-- Whether the line is given as a premise. -/
def Line.isPremise (l : Line) : Bool := l.reason.rule = "prem"

end Sequitur
