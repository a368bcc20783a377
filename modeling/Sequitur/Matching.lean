import Sequitur.Formula.Basic
import Sequitur.Table

/-!
# Matching formulas with holes

Two formulas are unified by binding the holes of either to the parts that stand opposite.  A hole
that is bound already has to meet an equal part again; nothing is substituted, so a binding is never
looked into.

Holes of formulas and holes of quantified variables are bound in the tables of the match at hand.
Holes among the arguments of predicates are bound in a *standing* table, which outlives the match: a
later match meets what an earlier one has bound there.  A match that is given no table for its
quantified variables takes the standing one for them as well, so that both kinds of holes share one
table; and one that is given none for formula holes takes a standing one.

Bindings made before a mismatch is found are kept.
-/

namespace Sequitur

/-- What holes are bound to. -/
structure Bindings where
  /-- Holes of formulas. -/
  formulas : Table String Formula := {}
  /-- Holes of variables, bound to names. -/
  names : Table String String := {}
  deriving DecidableEq, Repr, Inhabited

/-- The tables of a match in progress. -/
structure Unifier where
  /-- Holes of formulas. -/
  formulas : Table String Formula := {}
  /-- Holes of quantified variables; without a table of their own they share the standing one. -/
  names : Option (Table String String) := some {}
  /-- Holes among the arguments of predicates. -/
  standing : Table String String := {}
  deriving DecidableEq, Repr, Inhabited

/-- Bind the hole `h` to `a`, or compare `a` with what the hole is bound to. -/
def Table.bind {α : Type} [DecidableEq α] (t : Table String α) (h : String) (a : α) :
    Bool × Table String α :=
  match t.get? h with
  | some b => (b = a, t)
  | none => (true, t.put h a)

namespace Variable

/-- Match two variables; a hole meets a named variable only. -/
def unify (t : Table String String) : Variable → Variable → Bool × Table String String
  | hole h, named x => t.bind h x
  | named x, hole h => t.bind h x
  | named x, named y => (x = y, t)
  -- not even a hole that meets itself
  | hole _, hole _ => (false, t)

/-- Match variables place by place, up to the first mismatch. -/
def unifyAll (t : Table String String) : List Variable → List Variable → Bool × Table String String
  | v :: vs, w :: ws =>
    match v.unify t w with
    | (true, t') => unifyAll t' vs ws
    | failed => failed
  | _, _ => (true, t)

end Variable

namespace Unifier

/-- Bind a formula hole. -/
def bindFormula (s : Unifier) (h : String) (f : Formula) : Bool × Unifier :=
  let (ok, t) := s.formulas.bind h f
  (ok, { s with formulas := t })

/-- Match two quantified variables. -/
def quantified (s : Unifier) (v w : Variable) : Bool × Unifier :=
  match s.names with
  | some t =>
    let (ok, t') := v.unify t w
    (ok, { s with names := some t' })
  | none =>
    -- without a table of their own they meet what earlier matches have bound
    let (ok, t') := v.unify s.standing w
    (ok, { s with standing := t' })

/-- Match the arguments of two predicates. -/
def arguments (s : Unifier) (vs ws : List Variable) : Bool × Unifier :=
  let (ok, t) := Variable.unifyAll s.standing vs ws
  (ok, { s with standing := t })

/-- The bindings that the match has made in its own tables, or shares with the standing one. -/
def bindings (s : Unifier) : Bindings := ⟨s.formulas, s.names.getD s.standing⟩

end Unifier

namespace Formula

/-- Match two formulas.  A formula hole on the left comes before one on the right, and both before
    everything else; the left part of a connective comes before the right one. -/
def unify : Formula → Formula → Unifier → Bool × Unifier
  -- also where the other formula is a hole
  | hole h, q, s => s.bindFormula h q
  | p, hole h, s => s.bindFormula h p
  | term v, term w, s => s.quantified v w
  | conj a b, conj c d, s =>
    match unify a c s with
    | (true, s') => unify b d s'
    | failed => failed
  | disj a b, disj c d, s =>
    match unify a c s with
    | (true, s') => unify b d s'
    | failed => failed
  | imp a b, imp c d, s =>
    match unify a c s with
    | (true, s') => unify b d s'
    | failed => failed
  | all v p, all w q, s =>
    match s.quantified v w with
    | (true, s') => unify p q s'
    | failed => failed
  | ex v p, ex w q, s =>
    match s.quantified v w with
    | (true, s') => unify p q s'
    | failed => failed
  | pred n vs, pred m ws, s =>
    -- names are compared before any argument is bound
    if n = m ∧ vs.length = ws.length then s.arguments vs ws else (false, s)
  | truth a, truth b, s => (a = b, s)
  | atom a, atom b, s => (a = b, s)
  | _, _, s => (false, s)

end Formula

/-- The tables that a match is given.  In place of one that it is not given, it takes the standing
    one. -/
structure Given where
  /-- For holes of formulas. -/
  formulas : Option (Table String Formula) := none
  /-- For holes of quantified variables. -/
  names : Option (Table String String) := none
  deriving DecidableEq, Repr, Inhabited

/-- The answer of a match: whether it succeeded, what it bound, and the standing bindings after
    it. -/
structure Match where
  succeeded : Bool
  bindings : Bindings
  standing : Bindings
  deriving DecidableEq, Repr, Inhabited

namespace Formula

/-- Match two formulas in the tables that are given. -/
def matchIn (standing : Bindings) (given : Given) (p q : Formula) : Match :=
  let (ok, s) := p.unify q ⟨given.formulas.getD standing.formulas, given.names, standing.names⟩
  ⟨ok, s.bindings, ⟨if given.formulas.isSome then standing.formulas else s.formulas, s.standing⟩⟩

/-- Match two formulas, starting from the bindings `own`. -/
def matchWith (standing own : Bindings) (p q : Formula) : Match :=
  p.matchIn standing ⟨some own.formulas, some own.names⟩ q

/-- Match two formulas in the standing tables alone. -/
def matchStanding (standing : Bindings) (p q : Formula) : Match := p.matchIn standing {} q

/-- Match two formulas with a new table for formula holes and the standing one for variables. -/
def matchVariablesStanding (standing : Bindings) (p q : Formula) : Match :=
  p.matchIn standing ⟨some {}, none⟩ q

/-- Whether a formula is an instance of the excluded middle, in either order of its sides.  With the
    answer come the standing bindings. -/
def isExcludedMiddle (standing : Bindings) (p : Formula) : Bool × Bindings :=
  let a := hole "a"
  let first := matchVariablesStanding standing p (disj a (neg a))
  if first.succeeded then (true, first.standing)
  else
    -- from what the first match has left in the standing table
    let second := matchVariablesStanding first.standing p (disj (neg a) a)
    (second.succeeded, second.standing)

end Formula

end Sequitur
