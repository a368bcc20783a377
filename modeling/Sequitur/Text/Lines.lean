/-!
# Lines of a text

A line ends with its line break.  Carriage returns, alone or before a newline, count as newlines.
-/

namespace Sequitur.Text

/-- Turn every line break into a newline. -/
def normalizeBreaks : List Char → List Char
  | [] => []
  | '\r' :: '\n' :: cs => '\n' :: normalizeBreaks cs
  | c :: cs => (if c = '\r' then '\n' else c) :: normalizeBreaks cs

/-- Cut after every newline; each piece keeps its newline, and no piece is empty. -/
def cutLines : List Char → List (List Char)
  | [] => []
  | c :: cs =>
    if c = '\n' then [c] :: cutLines cs
    else
      match cutLines cs with
      | [] => [[c]]
      | l :: ls => (c :: l) :: ls

/-- The lines of a file. -/
def fileLines (s : String) : List String :=
  (cutLines (normalizeBreaks s.toList)).map String.ofList

/-- Cutting into lines loses nothing. -/
theorem flatten_cutLines (cs : List Char) : (cutLines cs).flatten = cs := by
  induction cs with
  | nil => rfl
  | cons c cs ih =>
    simp only [cutLines]
    split
    · simp [ih]
    · split
      · next h => rw [h] at ih; simp_all
      · next h => rw [h] at ih; simp_all

end Sequitur.Text
