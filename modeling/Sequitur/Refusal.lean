import Sequitur.Formula.Basic
import Sequitur.Text.Listing

/-!
# Refusals

Every reason for which a step is refused, as a cause.  The wording is in `Refusal.message` and
nowhere else.

Some causes have no wording: a quantifier over a hole, and a disjunctive syllogism whose negation
denies neither side.
-/

namespace Sequitur

/-- Why a step is refused. -/
inductive Refusal where
  /-- The formula is no implication. -/
  | notImplication (f : Formula)
  /-- The implication takes `expected` and was given `actual`. -/
  | wrongAntecedent (expected actual : Formula)
  /-- The implication from `p` to `q` cannot be followed by the one from `r` to `s`. -/
  | notComposable (p q r s : Formula)
  /-- The formula is no conjunction. -/
  | notConjunction (f : Formula)
  /-- The formula has no two sides to merge. -/
  | notSum (f : Formula)
  /-- The sides of a disjunction differ. -/
  | sidesDiffer (f : Formula)
  /-- Two implications start from different formulas. -/
  | domainsDiffer (f g : Formula)
  /-- Two implications end in different formulas. -/
  | codomainsDiffer (f g : Formula)
  /-- The formula is no negation. -/
  | notNegation (f : Formula)
  /-- The two formulas are the same, so there is no place at which they differ. -/
  | noDifference (p q : Formula)
  /-- The equivalence of `left` and `right` does not lead from `old` to `new`. -/
  | ruleFails (left right old new : Formula)
  /-- Two formulas have different shapes. -/
  | shapesDiffer
  /-- The variable found for an instantiation is bound by a quantifier. -/
  | captured
  /-- Two different variables `first` and `second` are found for `v`. -/
  | ambiguous (v first second : Variable)
  /-- A quantifier binds a hole. -/
  | quantifiedHole
  /-- The cited line is no negation. -/
  | citedNotNegation (number : Int) (f : Formula)
  /-- The cited line is no disjunction. -/
  | citedNotDisjunction (number : Int) (f : Formula)
  /-- The formula to be shown is no disjunction. -/
  | notDisjunction (f : Formula)
  /-- The negated formula is neither side of the disjunction. -/
  | notASide
  /-- The formula to be shown is no implication, so no block yields it. -/
  | notDeducible (f : Formula)
  /-- No line of the block has this formula. -/
  | notDeduced (f : Formula)
  /-- The block starts from another hypothesis. -/
  | otherHypothesis (f : Formula)
  /-- The rule yields `actual` and not `expected`. -/
  | otherResult (expected actual : Formula)
  /-- A universal instantiation cites a formula of another kind. -/
  | citedNotUniversal
  /-- A universal generalization to a formula of another kind. -/
  | notUniversal
  /-- An existential instantiation cites a formula of another kind. -/
  | citedNotExistential
  /-- An existential generalization to a formula of another kind. -/
  | notExistential
  /-- The quantified variable does not occur, so nothing is found for it. -/
  | noSubstitution
  /-- The generalized variable was never instantiated. -/
  | notInstantiated (v : Variable)
  /-- Names that the generalized variable depends on are symbols of the formula. -/
  | dependentsInScope (v : Variable) (names : List String)
  /-- The instantiated variable is already in use. -/
  | notFresh (v : Variable)
  /-- The cited lines, from the lowest to the highest, are no block. -/
  | incompleteBlock (lowest highest : Int)
  /-- The cited block has not exactly one hypothesis. -/
  | severalHypotheses (hypotheses : List Formula)
  /-- There is no rule of this name. -/
  | unknownRule (name : String)
  /-- The argument does not yield the formula. -/
  | unproductive (argument : String) (f : Formula)
  deriving DecidableEq, Repr, Inhabited

namespace Refusal

/-- The wording of a refusal. -/
def message : Refusal → String
  | notImplication f => f.text ++ " is not an implication!"
  | wrongAntecedent e a => "Implication expects " ++ e.text ++ ", got " ++ a.text ++ "!"
  | notComposable p q r s =>
    "Cannot compose " ++ (Formula.imp p q).text ++ " and " ++ (Formula.imp r s).text ++ ", since " ++
      q.text ++ " != " ++ r.text ++ "!"
  | notConjunction f => f.text ++ " is not a conjunction!"
  | notSum f => f.text ++ " is not a sum type!"
  | sidesDiffer f => "No codiagonal out of " ++ f.text ++ "!"
  | domainsDiffer f g => "Domains of " ++ f.text ++ " and " ++ g.text ++ " do not match!"
  | codomainsDiffer f g => "Codomains of " ++ f.text ++ " and " ++ g.text ++ " do not match!"
  | notNegation f => f.text ++ " is not a negation!"
  | noDifference p q => p.text ++ " == " ++ q.text
  | ruleFails l r o n =>
    "Failed to apply rule " ++ l.text ++ " <=> " ++ r.text ++ " to " ++ o.text ++ " => " ++ n.text ++ "!"
  | shapesDiffer => "Statements differ in more than just variable names!"
  | captured => "Cannot instantiate into a quantified variable!"
  | ambiguous v a b =>
    "Ambiguous substitution: [" ++ v.text ++ " -> " ++ a.text ++ ", " ++ b.text ++ "]"
  | quantifiedHole => ""
  | citedNotNegation n f => toString n ++ ": " ++ f.text ++ " is not a negation!"
  | citedNotDisjunction n f => toString n ++ ": " ++ f.text ++ " is not a disjunction!"
  | notDisjunction f => f.text ++ " is not a disjunction!"
  | notASide => ""
  | notDeducible f => "Cannot use deduction rule on `" ++ f.text ++ "`, as its not an implication!"
  | notDeduced f => "Cannot deduce `" ++ f.text ++ "` from proof!"
  | otherHypothesis f => "Proof does not take `" ++ f.text ++ "` as its hypothesis!"
  | otherResult e a => "Expected `" ++ e.text ++ "`, but got type `" ++ a.text ++ "`!"
  | citedNotUniversal => "Cannot universally instantiate a formula that is not universally quantified!"
  | notUniversal => "Cannot universally generalize to a formula that is not universally quantified!"
  | citedNotExistential =>
    "Cannot existentially instantiate a formula that is not existentially quantified!"
  | notExistential => "Cannot existentially generalize to a formula that is not existentially quantified!"
  | noSubstitution => "Could not determine a unique substitution!"
  | notInstantiated v => "Cannot generalize `" ++ v.text ++ "`: variable not instantiated!"
  | dependentsInScope v ns =>
    "Cannot generalize " ++ v.text ++ ": dependent e.i. variables are still in scope! (" ++
      Text.braced (ns.map fun n => "'" ++ n ++ "'") ++ ")"
  | notFresh v => "`" ++ v.text ++ "` is not a fresh constant!"
  | incompleteBlock lo hi =>
    toString lo ++ "-" ++ toString hi ++ " does not denote a complete proof!"
  | severalHypotheses hs =>
    "A proof that uses multiple hypotheses cannot be used in the deduction rule! (hypotheses=" ++
      Text.braced (hs.map Formula.text) ++ ")"
  | unknownRule n => n ++ " is not a recognized justification!"
  | unproductive a f => "Cannot use `" ++ a ++ "` to produce " ++ f.text ++ "!"

end Refusal

end Sequitur
