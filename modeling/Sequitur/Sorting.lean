/-!
# Sorting by number

Things that carry a number are sorted by insertion, and things of the same number keep their order.
The recursion is structural, so that what depends on the order of line numbers can be computed in
proofs as well.
-/

namespace Sequitur

variable {α : Type}

/-- Insert `a` into a sorted list, before what has the same number. -/
def insertBy (number : α → Int) (a : α) : List α → List α
  | [] => [a]
  | b :: bs => if number a ≤ number b then a :: b :: bs else b :: insertBy number a bs

/-- Sort a list by number. -/
def sortBy (number : α → Int) : List α → List α
  | [] => []
  | a :: as => insertBy number a (sortBy number as)

/-- Sort line numbers. -/
def sortNumbers (ns : List Int) : List Int := sortBy id ns

end Sequitur
