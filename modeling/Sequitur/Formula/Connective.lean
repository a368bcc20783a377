import Sequitur.Refusal

/-!
# Operations on connectives

The connectives read as arrows, products and sums: an implication is applied and composed, a
conjunction projected, a disjunction injected into and merged.  An operation that does not fit its
arguments says why.
-/

namespace Sequitur.Formula

/-- Apply the implication `f` to `x`. -/
def apply (f x : Formula) : Except Refusal Formula :=
  match f with
  | imp p q => if p = x then .ok q else .error (.wrongAntecedent p x)
  | _ => .error (.notImplication f)

/-- Follow the implication `f` by the implication `g`. -/
def compose (f g : Formula) : Except Refusal Formula :=
  match f, g with
  | imp p q, imp r s => if q = r then .ok (imp p s) else .error (.notComposable p q r s)
  | imp _ _, _ => .error (.notImplication g)
  | _, _ => .error (.notImplication f)

/-- The left side of a conjunction. -/
def projLeft (p : Formula) : Except Refusal Formula :=
  match p with
  | conj a _ => .ok a
  | _ => .error (.notConjunction p)

/-- The right side of a conjunction. -/
def projRight (p : Formula) : Except Refusal Formula :=
  match p with
  | conj _ b => .ok b
  | _ => .error (.notConjunction p)

/-- The disjunction with `p` on the left and `q` on the right. -/
def injLeft (p q : Formula) : Formula := disj p q

/-- The disjunction with `p` on the right and `q` on the left. -/
def injRight (p q : Formula) : Formula := disj q p

/-- A formula and itself. -/
def diagonal (p : Formula) : Formula := conj p p

/-- The one formula that both sides of a disjunction are. -/
def codiagonal (p : Formula) : Except Refusal Formula :=
  match p with
  | disj a b => if a = b then .ok a else .error (.sidesDiffer p)
  | _ => .error (.notSum p)

/-- Two implications from one formula, as an implication to the conjunction of their ends. -/
def pair (f g : Formula) : Except Refusal Formula :=
  match f, g with
  | imp p q, imp r s => if p = r then .ok (imp p (conj q s)) else .error (.domainsDiffer f g)
  | imp _ _, _ => .error (.notImplication g)
  | _, _ => .error (.notImplication f)

/-- Two implications to one formula, as an implication from the disjunction of their starts. -/
def copair (f g : Formula) : Except Refusal Formula :=
  match f, g with
  | imp p q, imp r s => if q = s then .ok (imp (disj p r) q) else .error (.codomainsDiffer f g)
  | imp _ _, _ => .error (.notImplication g)
  | _, _ => .error (.notImplication f)

/-- The formula that a negation denies. -/
def denied (p : Formula) : Except Refusal Formula :=
  match p with
  | imp a (truth false) => .ok a
  | _ => .error (.notNegation p)

end Sequitur.Formula
