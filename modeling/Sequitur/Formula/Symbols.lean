import Sequitur.Refusal

/-!
# Symbols of a formula

The variables that a formula mentions, and those that its quantifiers bind.  Both are collected over
the whole formula, so a variable that is free in one place and bound in another is in both lists.
-/

namespace Sequitur

/-- The variables of a formula. -/
structure Symbols where
  /-- Arguments of predicates and variables of quantifiers. -/
  mentioned : List Variable := []
  /-- Variables of quantifiers. -/
  bound : List Variable := []
  deriving DecidableEq, Repr, Inhabited

namespace Symbols

/-- The symbols of two formulas together. -/
def merge (s t : Symbols) : Symbols := ⟨s.mentioned ++ t.mentioned, s.bound ++ t.bound⟩

/-- The symbols under one more quantifier. -/
def bind (v : Variable) (s : Symbols) : Symbols := ⟨v :: s.mentioned, v :: s.bound⟩

/-- The variables that no quantifier of the formula binds anywhere. -/
def unbound (s : Symbols) : List Variable := s.mentioned.filter fun v => v ∉ s.bound

end Symbols

namespace Formula

/-- Whether `v` is an argument of a predicate or the variable of a quantifier. -/
def uses (v : Variable) : Formula → Bool
  | conj p q | disj p q | imp p q => p.uses v || q.uses v
  | all w p | ex w p => w = v || p.uses v
  | pred _ args => args.contains v
  -- a variable in the place of a formula is no symbol of it
  | truth _ | atom _ | hole _ | term _ => false

/-- The symbols of a formula; a quantifier over a hole is refused. -/
def symbols : Formula → Except Refusal Symbols
  | conj p q | disj p q | imp p q =>
    match p.symbols with
    | .error r => .error r
    | .ok s =>
      match q.symbols with
      | .error r => .error r
      | .ok t => .ok (s.merge t)
  | all v p | ex v p =>
    if v.isNamed then
      match p.symbols with
      | .error r => .error r
      | .ok s => .ok (s.bind v)
    else .error .quantifiedHole
  | pred _ args => .ok ⟨args, []⟩
  | truth _ | atom _ | hole _ | term _ => .ok {}

end Formula

end Sequitur
