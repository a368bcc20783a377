/-!
# Variables

The variables that predicates are about and quantifiers bind.  A variable of a proof has a name; a
*hole* stands for a variable that matching still has to find.
-/

namespace Sequitur

/-- A variable, or a hole for one. -/
inductive Variable where
  | named (name : String)
  | hole (name : String)
  deriving DecidableEq, Repr, Inhabited

namespace Variable

/-- The bare name, with no mark that tells a hole from a variable. -/
def name : Variable → String
  | named n => n
  | hole n => n

/-- The written form: a hole carries a question mark. -/
def text : Variable → String
  | named n => n
  | hole n => "?" ++ n

/-- Whether this is a variable and not a hole. -/
def isNamed : Variable → Bool
  | named _ => true
  | hole _ => false

end Variable

end Sequitur
