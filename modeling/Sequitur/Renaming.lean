import Sequitur.Refusal
import Sequitur.Table

/-!
# Renaming a variable

Given a formula, a variable of it and a second formula of the same shape, find the variable that
stands in the second wherever the given one stands in the first.

The comparison looks at shapes, at quantified variables, at the names and lengths of predicates and
at the places of the given variable.  Letters and other arguments are not compared.
-/

namespace Sequitur

/-- What a renaming has found so far, and why it stopped if it did. -/
structure Renaming where
  refusal : Option Refusal := none
  found : Option Variable := none
  deriving DecidableEq, Repr, Inhabited

/-- Compare the arguments of a predicate: wherever `v` stands, the same variable has to stand in the
    other list. -/
def Renaming.arguments (v : Variable) :
    List Variable → List Variable → Option Variable → Renaming
  | a :: as, b :: bs, found =>
    if a = v then
      match found with
      -- the first place decides, and the others have to agree with it
      | none => arguments v as bs (some b)
      | some c => if c = b then arguments v as bs found else ⟨some (.ambiguous v c b), found⟩
    else arguments v as bs found
  | _, _, found => ⟨none, found⟩

namespace Formula

/-- Find what `v` is renamed to between two formulas, from what is `found` already.  A quantifier
    may not bind the variable that was found before it was reached. -/
def rename (v : Variable) : Formula → Formula → Option Variable → Renaming
  | conj a b, conj c d, found =>
    match rename v a c found with
    | ⟨none, found'⟩ => rename v b d found'
    | refused => refused
  | disj a b, disj c d, found =>
    match rename v a c found with
    | ⟨none, found'⟩ => rename v b d found'
    | refused => refused
  | imp a b, imp c d, found =>
    match rename v a c found with
    | ⟨none, found'⟩ => rename v b d found'
    | refused => refused
  | all w p, all u q, found =>
    if w = u then
      -- only what was found to the left is compared, never what is found below
      if found = some u then ⟨some .captured, found⟩ else rename v p q found
    else ⟨some .shapesDiffer, found⟩
  | ex w p, ex u q, found =>
    if w = u then
      if found = some u then ⟨some .captured, found⟩ else rename v p q found
    else ⟨some .shapesDiffer, found⟩
  | pred n xs, pred m ys, found =>
    if n = m ∧ xs.length = ys.length then Renaming.arguments v xs ys found
    else ⟨some .shapesDiffer, found⟩
  | truth _, truth _, found => ⟨none, found⟩
  -- letters are not compared
  | atom _, atom _, found => ⟨none, found⟩
  | hole _, hole _, found => ⟨none, found⟩
  | term (.named _), term (.named _), found => ⟨none, found⟩
  | term (.hole _), term (.hole _), found => ⟨none, found⟩
  | _, _, found => ⟨some .shapesDiffer, found⟩

/-- Find what `v` is renamed to between two formulas and enter it in a table of renamings, from
    which the search starts. -/
def renameIn (t : Table Variable Variable) (v : Variable) (p q : Formula) :
    Option Refusal × Table Variable Variable :=
  let r := rename v p q (t.get? v)
  (r.refusal, r.found.elim t (t.put v))

/-- The one variable that `v` is renamed to between two formulas. -/
def renamed (v : Variable) (p q : Formula) : Except Refusal Variable :=
  match rename v p q none with
  | ⟨some r, _⟩ => .error r
  -- `v` does not occur, so any variable would do
  | ⟨none, none⟩ => .error .noSubstitution
  | ⟨none, some w⟩ => .ok w

end Formula

end Sequitur
