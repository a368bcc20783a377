import Sequitur.Text.Tabs

/-!
# Where reading failed

A failure is a position in the text that was read, after its tabs were expanded.
-/

namespace Sequitur.Grammar

/-- A text that could not be read, and the position of the failure. -/
structure Unreadable where
  /-- The text, without tabs. -/
  text : List Char
  /-- The number of characters before the failure. -/
  pos : Nat
  deriving DecidableEq, Repr, Inhabited

namespace Unreadable

/-- The characters of the line that holds the failure, up to it. -/
def before (f : Unreadable) : List Char :=
  ((f.text.take f.pos).reverse.takeWhile fun c => c ≠ '\n').reverse

/-- The characters of the line that holds the failure, from it on. -/
def after (f : Unreadable) : List Char := (f.text.drop f.pos).takeWhile fun c => c ≠ '\n'

/-- The number of the line, from one. -/
def line (f : Unreadable) : Nat := (f.text.take f.pos).count '\n' + 1

/-- The column, from one. -/
def column (f : Unreadable) : Nat := f.before.length + 1

/-- The line that holds the failure, a mark below it, and the position in numbers. -/
def explain (f : Unreadable) : String :=
  String.ofList (f.before ++ f.after) ++ "\n" ++
    String.ofList (List.replicate (f.column - 1) ' ') ++ "^\n" ++
    "ParseException: (at char " ++ toString f.pos ++ "), (line:" ++ toString f.line ++ ", col:" ++
    toString f.column ++ ")"

end Unreadable

end Sequitur.Grammar
