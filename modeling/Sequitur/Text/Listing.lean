/-!
# Listings

Collections are shown sorted by the text of their members, in the order of code points, so that what
is shown depends on the members alone.
-/

namespace Sequitur.Text

/-- Sort texts by code points. -/
def sorted (texts : List String) : List String :=
  texts.mergeSort fun a b => decide (a ≤ b)

/-- Sort texts by code points and keep one of each. -/
def distinct (texts : List String) : List String :=
  (sorted texts).eraseDups

/-- Separate texts by a comma and a blank. -/
def commas (texts : List String) : String := String.intercalate ", " texts

/-- A collection between braces, its members sorted; the empty one is written `set()`. -/
def braced (texts : List String) : String :=
  if texts.isEmpty then "set()" else "\x7b" ++ commas (sorted texts) ++ "\x7d"

/-- A list of integers between brackets. -/
def bracketed (ns : List Int) : String := "[" ++ commas (ns.map toString) ++ "]"

end Sequitur.Text
