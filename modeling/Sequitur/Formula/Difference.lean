import Sequitur.Refusal

/-!
# The place where two formulas differ

Two formulas of the same shape at the top, which agree on one side, differ on the other: following
the side that differs leads to the deepest pair of subformulas that accounts for the whole
difference.
-/

namespace Sequitur.Formula

/-- The deepest pair of subformulas, at one place, outside which the two formulas agree.  Equal
    predicates have no such place. -/
def difference : Formula → Formula → Except Refusal (Formula × Formula)
  | conj a b, conj c d =>
    -- the left side first: formulas that agree on both are followed to the right
    if a = c then difference b d else if b = d then difference a c else .ok (conj a b, conj c d)
  | disj a b, disj c d =>
    if a = c then difference b d else if b = d then difference a c else .ok (disj a b, disj c d)
  | imp a b, imp c d =>
    if a = c then difference b d else if b = d then difference a c else .ok (imp a b, imp c d)
  | all v p, all w q => if v = w then difference p q else .ok (all v p, all w q)
  | ex v p, ex w q => if v = w then difference p q else .ok (ex v p, ex w q)
  | pred n xs, pred m ys =>
    -- reached only if the whole formulas are equal
    if pred n xs = pred m ys then .error (.noDifference (pred n xs) (pred m ys))
    else .ok (pred n xs, pred m ys)
  | p, q => .ok (p, q)

end Sequitur.Formula
