import Sequitur.Table

/-!
# Variable contexts

A line keeps the names that universal instantiation has brought in and that may be generalized
again.  With each goes its *dependence set*: the names that existential instantiation has chosen
while it was in scope.

A dependence set may belong to several lines at once, and then a change is seen by all of them.  So
a line does not hold its sets but the numbers of their places in a store (`Scope`); `Store.view`
reads off what the line's context is at the moment (`VariableContext`).
-/

namespace Sequitur

/-- Add a name to a set of names. -/
def addName (s : List String) (n : String) : List String := if n ∈ s then s else s ++ [n]

/-- Add several names to a set of names. -/
def addNames (s t : List String) : List String := t.foldl addName s

/-- Remove a name from a set of names. -/
def dropName (s : List String) (n : String) : List String := s.filter fun m => m ≠ n

/-- Names that may be generalized, each with its dependence set. -/
abbrev VariableContext := Table String (List String)

/-- The variable contexts of several lines as one: a name depends on whatever it depends on in any
    of them. -/
def VariableContext.combine (ctxs : List VariableContext) : VariableContext :=
  ctxs.foldl (fun acc ctx =>
    ctx.entries.foldl (fun acc e =>
      acc.put e.1 (addNames ((acc.get? e.1).getD []) e.2)) acc) {}

/-- The place of a dependence set in the store. -/
abbrev SetId := Nat

/-- Names that may be generalized, each with the place of its dependence set. -/
abbrev Scope := Table String SetId

/-- The dependence sets of all lines. -/
structure Store where
  sets : List (List String) := []
  deriving DecidableEq, Repr, Inhabited

namespace Store

/-- The set in a place. -/
def get (s : Store) (i : SetId) : List String := s.sets.getD i []

/-- Put a set in a new place. -/
def alloc (s : Store) (set : List String) : Store × SetId := (⟨s.sets ++ [set]⟩, s.sets.length)

/-- Change the set in a place. -/
def modify (s : Store) (i : SetId) (f : List String → List String) : Store :=
  ⟨s.sets.modify i f⟩

/-- Change the sets of a scope. -/
def modifyAll (s : Store) (scope : Scope) (f : List String → List String) : Store :=
  -- a place that occurs twice is changed twice
  scope.values.foldl (fun s i => s.modify i f) s

/-- What a scope says at the moment. -/
def view (s : Store) (scope : Scope) : VariableContext := scope.map s.get

/-- Put every set of a variable context in a new place. -/
def allocAll (s : Store) (ctx : VariableContext) : Store × Scope :=
  ctx.entries.foldl (fun (s, scope) e =>
    let (s, i) := s.alloc e.2
    (s, scope.put e.1 i)) (s, {})

end Store

end Sequitur
