import Sequitur.Formula.Basic

/-!
# Laws of equivalence

The sixteen equivalences by which a formula may be replaced.  Each is a pair of patterns over the
formula holes `?a`, `?b`, `?c` and the variable hole `?x`.
-/

namespace Sequitur

/-- Two patterns that stand for equivalent formulas. -/
structure Equivalence where
  left : Formula
  right : Formula
  deriving DecidableEq, Repr, Inhabited

/-- The equivalence read from right to left. -/
def Equivalence.swap (e : Equivalence) : Equivalence := ⟨e.right, e.left⟩

/-- The laws. -/
inductive Law where
  | orComm
  | andComm
  | orAssoc
  | andAssoc
  | doubleNegation
  | contraposition
  | implication
  | andOverOr
  | orOverAnd
  | negatedAnd
  | negatedOr
  | orSelf
  | andSelf
  | exportation
  | negatedForall
  | negatedExists
  deriving DecidableEq, Repr, Inhabited

namespace Law

open Formula

/-- The two sides of a law. -/
def equivalence (law : Law) : Equivalence :=
  let a := hole "a"
  let b := hole "b"
  let c := hole "c"
  let x := Variable.hole "x"
  match law with
  | orComm => ⟨disj a b, disj b a⟩
  | andComm => ⟨conj a b, conj b a⟩
  | orAssoc => ⟨disj (disj a b) c, disj a (disj b c)⟩
  | andAssoc => ⟨conj (conj a b) c, conj a (conj b c)⟩
  | doubleNegation => ⟨a, neg (neg a)⟩
  | contraposition => ⟨imp a b, imp (neg b) (neg a)⟩
  | implication => ⟨imp a b, disj (neg a) b⟩
  | andOverOr => ⟨conj a (disj b c), disj (conj a b) (conj a c)⟩
  | orOverAnd => ⟨disj a (conj b c), conj (disj a b) (disj a c)⟩
  | negatedAnd => ⟨neg (conj a b), disj (neg a) (neg b)⟩
  | negatedOr => ⟨neg (disj a b), conj (neg a) (neg b)⟩
  | orSelf => ⟨a, disj a a⟩
  | andSelf => ⟨a, conj a a⟩
  | exportation => ⟨imp a (imp b c), imp (conj a b) c⟩
  | negatedForall => ⟨neg (all x a), ex x (neg a)⟩
  | negatedExists => ⟨neg (ex x a), all x (neg a)⟩

/-- The word by which an argument shows the law that it uses. -/
def label : Law → String
  | orComm | andComm => "comm"
  | orAssoc | andAssoc => "assoc"
  | doubleNegation => "dn"
  | contraposition => "cp"
  | implication => "impl"
  | andOverOr | orOverAnd => "dist"
  | negatedAnd | negatedOr | negatedForall | negatedExists => "dm"
  | orSelf => "self_or"
  | andSelf => "self_and"
  | exportation => "exp"

end Law

end Sequitur
