import Sequitur.Variable

/-!
# Formulas

Formulas of first-order logic with holes.  Negation is not a connective of its own: `~p` is the
implication from `p` to falsity, and the written form knows it by that shape.

A formula hole stands for a formula, a `term` is a variable standing in the place of a formula; the
latter occurs only in patterns, where a variable and a formula may be compared.
-/

namespace Sequitur

/-- Formulas of first-order logic, with holes. -/
inductive Formula where
  /-- Truth and falsity. -/
  | truth (value : Bool)
  /-- A propositional letter. -/
  | atom (name : String)
  /-- A hole for a formula. -/
  | hole (name : String)
  /-- A variable in the place of a formula. -/
  | term (v : Variable)
  | conj (p q : Formula)
  | disj (p q : Formula)
  | imp (p q : Formula)
  /-- A predicate applied to variables. -/
  | pred (name : String) (args : List Variable)
  /-- Universal quantification. -/
  | all (v : Variable) (body : Formula)
  /-- Existential quantification. -/
  | ex (v : Variable) (body : Formula)
  deriving DecidableEq, Repr, Inhabited

namespace Formula

/-- Falsity. -/
@[match_pattern] abbrev falsum : Formula := truth false

/-- Negation: implication to falsity. -/
@[match_pattern] abbrev neg (p : Formula) : Formula := imp p falsum

/-- The written form.  Every binary connective and every quantifier is parenthesized, so that the
    text determines the tree; an implication to falsity is written as a negation. -/
def text : Formula → String
  | truth true => "True"
  | truth false => "False"
  | atom n => n
  | hole n => "?" ++ n
  | term v => v.text
  | conj p q => "(" ++ p.text ++ " /\\ " ++ q.text ++ ")"
  | disj p q => "(" ++ p.text ++ " \\/ " ++ q.text ++ ")"
  | imp p q => if q = falsum then "~" ++ p.text else "(" ++ p.text ++ " -> " ++ q.text ++ ")"
  | pred n args => n ++ "(" ++ String.intercalate ", " (args.map Variable.text) ++ ")"
  | all v p => "(forall " ++ v.text ++ ", " ++ p.text ++ ")"
  | ex v p => "(exists " ++ v.text ++ ", " ++ p.text ++ ")"

end Formula

end Sequitur
