import Sequitur.Refusal

/-!
# Faults

A fault breaks a run off, where a refusal answers it: a citation that leads nowhere, a rule with the
wrong number of lines, a file without lines.  `Failure` joins the two.
-/

namespace Sequitur

/-- What breaks a run off. -/
inductive Fault where
  /-- No line has this number. -/
  | missingLine (number : Int)
  /-- The block with this text has no type yet. -/
  | untypedBlock (text : String)
  /-- The rule takes another number of lines. -/
  | wrongCitationCount
  /-- The rule has no check on formulas alone. -/
  | noFormulaCheck
  /-- A deduction cites no line. -/
  | nothingCited
  /-- A block has a line that was never examined. -/
  | unexaminedLine
  /-- The citations lead round in a circle. -/
  | circularCitations
  /-- The file has no first line. -/
  | emptyFile
  /-- The main block does not yield a formula that was promised. -/
  | unmetObligation (f : Formula)
  deriving DecidableEq, Repr, Inhabited

/-- The wording of a fault. -/
def Fault.message : Fault → String
  | missingLine n => toString n
  | untypedBlock t => t
  | wrongCitationCount => "the rule takes another number of lines"
  | noFormulaCheck => "the rule has no check on formulas alone"
  | nothingCited => "the deduction cites no line"
  | unexaminedLine => "the block has a line that was never examined"
  | circularCitations => "the citations are circular"
  | emptyFile => "the file is empty"
  | unmetObligation f => "Proof obligation " ++ f.text ++ " not met!"

/-- Why a step does not succeed. -/
inductive Failure where
  | refusal (r : Refusal)
  | fault (f : Fault)
  deriving DecidableEq, Repr, Inhabited

end Sequitur
