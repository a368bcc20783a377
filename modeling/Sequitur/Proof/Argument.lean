import Sequitur.Formula.Connective
import Sequitur.Proof.Fault
import Sequitur.Proof.Line
import Sequitur.Replacement.Basic

/-!
# Rules and arguments

A rule is what the name in a line's reason stands for; an argument is a rule with the lines that it
is applied to.  `Argument.typecheck` decides whether an argument yields a formula, looking at the
formulas of the cited lines alone; the four quantifier rules need more than that and are verified
elsewhere.
-/

namespace Sequitur

/-- The rules that a line may name, deduction from a block apart. -/
inductive Rule where
  | modusPonens
  | modusTollens
  | simplification
  | addition
  | hypotheticalSyllogism
  | disjunctiveSyllogism
  | disjunctiveElimination
  | conjunction
  | disjunction
  /-- A hypothesis or a premise. -/
  | assumption
  | replacement (law : Law)
  | existentialInstantiation
  | existentialGeneralization
  | universalInstantiation
  | universalGeneralization
  deriving DecidableEq, Repr, Inhabited

/-- The name of the rule that closes a block. -/
def deductionName : String := "ded"

/-- The rule with a given name. -/
def Rule.ofName? : String → Option Rule
  | "mp" => some .modusPonens
  | "mt" => some .modusTollens
  | "simpl" => some .simplification
  | "add" => some .addition
  | "hs" => some .hypotheticalSyllogism
  | "ds" => some .disjunctiveSyllogism
  | "de" => some .disjunctiveElimination
  | "conj" => some .conjunction
  | "disj" => some .disjunction
  | "hyp" => some .assumption
  | "prem" => some .assumption
  | "or_comm" => some (.replacement .orComm)
  | "and_comm" => some (.replacement .andComm)
  | "or_assoc" => some (.replacement .orAssoc)
  | "and_assoc" => some (.replacement .andAssoc)
  | "dn" => some (.replacement .doubleNegation)
  | "imp" => some (.replacement .implication)
  | "dist_ao" => some (.replacement .andOverOr)
  | "dist_oa" => some (.replacement .orOverAnd)
  | "dm_ao" => some (.replacement .negatedAnd)
  | "dm_oa" => some (.replacement .negatedOr)
  | "dm_fe" => some (.replacement .negatedForall)
  | "dm_ef" => some (.replacement .negatedExists)
  | "exp" => some (.replacement .exportation)
  | "cp" => some (.replacement .contraposition)
  | "or_self" => some (.replacement .orSelf)
  | "and_self" => some (.replacement .andSelf)
  | "ei" => some .existentialInstantiation
  | "eg" => some .existentialGeneralization
  | "ui" => some .universalInstantiation
  | "ug" => some .universalGeneralization
  | _ => none

/-- The place of a line among the lines of a context. -/
abbrev LineId := Nat

/-- A cited line. -/
structure Cited where
  id : LineId
  number : Int
  formula : Formula
  deriving DecidableEq, Repr, Inhabited

/-- A rule with the lines that it is applied to. -/
inductive Argument where
  | modusPonens (implication antecedent : Cited)
  | modusTollens (implication contradiction : Cited)
  | simplification (conjunction : Cited)
  | addition (side : Cited)
  | hypotheticalSyllogism (first second : Cited)
  | disjunctiveSyllogism (disjunction negation : Cited)
  | disjunctiveElimination (disjunction left right : Cited)
  | conjunction (left right : Cited)
  | disjunction (left right : Cited)
  | assumption
  /-- A block with one hypothesis, and the formulas of its lines. -/
  | deduction (hypothesis : Formula) (results : List Formula)
  | replacement (law : Law) (old : Cited)
  | existentialInstantiation (quantified : Cited)
  | existentialGeneralization (inst : Cited)
  | universalInstantiation (quantified : Cited)
  | universalGeneralization (inst : Cited)
  deriving DecidableEq, Repr, Inhabited

/-- Apply a rule to cited lines, if it takes that many. -/
def Rule.argument? : Rule → List Cited → Option Argument
  | .modusPonens, [a, b] => some (.modusPonens a b)
  | .modusTollens, [a, b] => some (.modusTollens a b)
  | .simplification, [a] => some (.simplification a)
  | .addition, [a] => some (.addition a)
  | .hypotheticalSyllogism, [a, b] => some (.hypotheticalSyllogism a b)
  | .disjunctiveSyllogism, [a, b] => some (.disjunctiveSyllogism a b)
  | .disjunctiveElimination, [a, b, c] => some (.disjunctiveElimination a b c)
  | .conjunction, [a, b] => some (.conjunction a b)
  | .disjunction, [a, b] => some (.disjunction a b)
  | .assumption, [] => some .assumption
  | .replacement law, [a] => some (.replacement law a)
  | .existentialInstantiation, [a] => some (.existentialInstantiation a)
  | .existentialGeneralization, [a] => some (.existentialGeneralization a)
  | .universalInstantiation, [a] => some (.universalInstantiation a)
  | .universalGeneralization, [a] => some (.universalGeneralization a)
  | _, _ => none

namespace Argument

/-- The written form of an argument, for those that have one.  Modus tollens shows its lines without
    a name. -/
def label? : Argument → Option String
  | modusPonens a b => some ("mp " ++ Text.commas [toString a.number, toString b.number])
  | modusTollens a b => some (Text.commas [toString a.number, toString b.number])
  -- shown otherwise than it is cited
  | simplification a => some ("simp " ++ toString a.number)
  | addition a => some ("add " ++ toString a.number)
  | hypotheticalSyllogism a b => some ("hs " ++ Text.commas [toString a.number, toString b.number])
  | disjunctiveSyllogism a b => some ("ds " ++ Text.commas [toString a.number, toString b.number])
  | disjunctiveElimination a b c =>
    some ("de " ++ Text.commas [toString a.number, toString b.number, toString c.number])
  | assumption => some "hyp"
  | replacement law a => some (law.label ++ " " ++ toString a.number)
  | conjunction _ _ | disjunction _ _ | deduction _ _ | existentialInstantiation _
  | existentialGeneralization _ | universalInstantiation _ | universalGeneralization _ => none

/-- Whether the argument is a hypothesis or a premise. -/
def isAssumption : Argument → Bool
  | assumption => true
  | _ => false

/-- Whether `implication` and a negation of its consequent yield `expected`. -/
def checkTollens (implication contradiction : Cited) (expected : Formula) : Except Refusal Bool :=
  match contradiction.formula.denied with
  | .error _ => .error (.citedNotNegation contradiction.number contradiction.formula)
  | .ok _ =>
    -- a negation is an implication of falsity, so the two compose to one
    match implication.formula.compose contradiction.formula with
    | .error r => .error r
    | .ok f => .ok (f = expected)

/-- Whether `expected` is a side of the conjunction `f`. -/
def checkSimplification (f expected : Formula) : Except Refusal Bool :=
  match f.projLeft, f.projRight with
  | .ok p, .ok q => .ok (expected = p ∨ expected = q)
  | .error r, _ => .error r
  | _, .error r => .error r

/-- Whether `expected` is a disjunction with the side `f`. -/
def checkAddition (f expected : Formula) : Except Refusal Bool :=
  match expected with
  | .disj p q => .ok (f = p ∨ f = q)
  | _ => .error (.notDisjunction expected)

/-- Whether `expected` is a side of a disjunction one side of which is denied. -/
def checkSyllogism (disjunction : Cited) (negation expected : Formula) : Except Refusal Bool :=
  match disjunction.formula with
  | .disj p q =>
    match negation.denied with
    | .error r => .error r
    -- the side that is denied counts as a result as well
    | .ok a => if a = p ∨ a = q then .ok (expected = p ∨ expected = q) else .error .notASide
  | _ => .error (.citedNotDisjunction disjunction.number disjunction.formula)

/-- Whether two implications from the sides of a disjunction yield `expected`. -/
def checkElimination (disjunction left right expected : Formula) : Except Refusal Bool :=
  match left.copair right with
  | .error r => .error r
  | .ok f =>
    match f.apply disjunction with
    | .error r => .error r
    | .ok q => .ok (q = expected)

/-- Whether a block from `hypothesis` to any of `results` yields `expected`. -/
def checkDeduction (hypothesis : Formula) (results : List Formula) (expected : Formula) :
    Except Refusal Bool :=
  match expected with
  | .imp p q =>
    -- the conclusion is looked for before the hypothesis is compared
    if q ∈ results then
      if p = hypothesis then .ok true else .error (.otherHypothesis p)
    else .error (.notDeduced q)
  | _ => .error (.notDeducible expected)

/-- Whether `expected` is exactly `actual`. -/
def checkResult (actual expected : Formula) : Except Refusal Bool :=
  if actual = expected then .ok true else .error (.otherResult expected actual)

/-- Whether the formulas of the cited lines yield `expected`.  With the answer come the standing
    bindings, which a replacement may touch. -/
def typecheck (standing : Bindings) (expected : Formula) : Argument → Except Failure Bool × Bindings
  | modusPonens f x =>
    (((f.formula.apply x.formula).map fun q => decide (q = expected)).mapError .refusal, standing)
  | modusTollens f x => ((checkTollens f x expected).mapError .refusal, standing)
  | simplification f => ((checkSimplification f.formula expected).mapError .refusal, standing)
  | addition f => ((checkAddition f.formula expected).mapError .refusal, standing)
  | hypotheticalSyllogism f g =>
    (((f.formula.compose g.formula).map fun h => decide (h = expected)).mapError .refusal, standing)
  | disjunctiveSyllogism f x =>
    ((checkSyllogism f x.formula expected).mapError .refusal, standing)
  | disjunctiveElimination d f g =>
    ((checkElimination d.formula f.formula g.formula expected).mapError .refusal, standing)
  | conjunction p q =>
    ((checkResult (.conj p.formula q.formula) expected).mapError .refusal, standing)
  | disjunction p q =>
    ((checkResult (.disj p.formula q.formula) expected).mapError .refusal, standing)
  -- a hypothesis or premise may say anything
  | assumption => (.ok true, standing)
  | deduction h rs => ((checkDeduction h rs expected).mapError .refusal, standing)
  | replacement law old =>
    match law.equivalence.replace standing old.formula expected with
    | (.error r, standing) => (.error (.refusal r), standing)
    -- a step that changes nothing counts as a replacement by any law
    | (.ok _, standing) => (.ok true, standing)
  | existentialInstantiation _ | existentialGeneralization _ | universalInstantiation _
  | universalGeneralization _ => (.error (.fault .noFormulaCheck), standing)

end Argument

end Sequitur
