/-!
# Reading tokens

A cursor is a place in a text: how many characters are behind it and which are ahead.  Readers take
a cursor and either succeed with a value and the cursor after it, or fail at a position.

Every token skips blanks before it.  A token that does not match fails after the blanks; a sequence
fails where its first failing part fails; an ordered choice that fails does so at the furthest
position that one of its alternatives reached.
-/

namespace Sequitur.Grammar

/-- A place in a text. -/
structure Cursor where
  /-- The number of characters behind. -/
  pos : Nat
  /-- The characters ahead. -/
  rest : List Char
  deriving DecidableEq, Repr, Inhabited

/-- The result of a reader: a value and the place after it, or the position of the failure. -/
abbrev Parse (α : Type) := Except Nat (α × Cursor)

/-- The blanks between tokens: space, newline, tab and carriage return. -/
def isBlank (c : Char) : Bool := c = ' ' || c = '\n' || c = '\t' || c = '\r'

namespace Cursor

/-- The beginning of a text. -/
def start (cs : List Char) : Cursor := ⟨0, cs⟩

/-- Pass over the characters ahead that satisfy `p`. -/
def skipWhile (p : Char → Bool) (c : Cursor) : Cursor :=
  ⟨c.pos + (c.rest.takeWhile p).length, c.rest.dropWhile p⟩

/-- Pass over blanks. -/
def skipBlanks (c : Cursor) : Cursor := c.skipWhile isBlank

end Cursor

/-- Remove the characters `w` from the front of a text. -/
def dropWord : List Char → List Char → Option (List Char)
  | [], cs => some cs
  | _ :: _, [] => none
  | w :: ws, c :: cs => if w = c then dropWord ws cs else none

/-- Read the characters `w` where the cursor stands. -/
def exactly (w : List Char) (c : Cursor) : Parse Unit :=
  match dropWord w c.rest with
  | some cs => .ok ((), ⟨c.pos + w.length, cs⟩)
  | none => .error c.pos

/-- Read the characters of `w` as a token. -/
def token (w : String) (c : Cursor) : Parse Unit := exactly w.toList c.skipBlanks

/-- Read one character that satisfies `p`, as a token. -/
def oneOf (p : Char → Bool) (c : Cursor) : Parse Char :=
  match c.skipBlanks with
  | ⟨pos, a :: cs⟩ => if p a then .ok (a, ⟨pos + 1, cs⟩) else .error pos
  | ⟨pos, []⟩ => .error pos

/-- Read as many characters that satisfy `p` as there are, and at least one, as a token. -/
def word (p : Char → Bool) (c : Cursor) : Parse (List Char) :=
  let c := c.skipBlanks
  match c.rest.takeWhile p with
  | [] => .error c.pos
  | w => .ok (w, c.skipWhile p)

/-- Sequence: go on with the value and the place after it, or fail as the first part fails. -/
def andThen {α β : Type} (first : Parse α) (next : α → Cursor → Parse β) : Parse β :=
  match first with
  | .error i => .error i
  | .ok (a, c) => next a c

/-- Ordered choice.  When both fail, the further failure counts. -/
def orElse {α : Type} (first : Parse α) (second : Unit → Parse α) : Parse α :=
  match first with
  | .ok r => .ok r
  | .error i =>
    match second () with
    | .ok r => .ok r
    -- the report tells how far any of them got
    | .error j => .error (max i j)

/-- An optional part: without it the cursor stays where it is. -/
def optional {α : Type} (c : Cursor) (part : Parse α) (otherwise : α) : α × Cursor :=
  match part with
  | .ok r => r
  | .error _ => (otherwise, c)

/-- Read `item` preceded by a comma, as often as it can be done with the given fuel; a repetition
    that fails in the middle is not counted. -/
def commaTail {α : Type} (item : Cursor → Parse α) : Nat → Cursor → List α × Cursor
  | 0, c => ([], c)
  | n + 1, c =>
    match token "," c with
    | .error _ => ([], c)
    | .ok (_, c₁) =>
      match item c₁ with
      -- the comma is given back
      | .error _ => ([], c)
      | .ok (a, c₂) =>
        let (as, c₃) := commaTail item n c₂
        (a :: as, c₃)

/-- Read one or more items separated by commas. -/
def commaList {α : Type} (item : Cursor → Parse α) (c : Cursor) : Parse (List α) :=
  andThen (item c) fun a c =>
  let (as, c) := commaTail item c.rest.length c
  .ok (a :: as, c)

/-- Require that only blanks are left. -/
def atEnd (c : Cursor) : Except Nat Unit :=
  match c.skipBlanks with
  | ⟨_, []⟩ => .ok ()
  | ⟨pos, _ :: _⟩ => .error pos

/-- An ASCII letter. -/
def isLetter (c : Char) : Bool := c.isAlpha

/-- An ASCII capital letter. -/
def isCapital (c : Char) : Bool := c.isUpper

/-- An ASCII digit. -/
def isNumeral (c : Char) : Bool := c.isDigit

/-- A character of a rule's name. -/
def isRuleChar (c : Char) : Bool := c.isLower || c = '_'

/-- The value of a row of digits. -/
def digitsValue (ds : List Char) : Nat := ds.foldl (fun n d => 10 * n + (d.toNat - '0'.toNat)) 0

/-- Read a number. -/
def number (c : Cursor) : Parse Nat :=
  andThen (word isNumeral c) fun ds c => .ok (digitsValue ds, c)

end Sequitur.Grammar
