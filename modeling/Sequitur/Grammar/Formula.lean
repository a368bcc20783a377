import Sequitur.Formula.Basic
import Sequitur.Grammar.Cursor
import Sequitur.Grammar.Unreadable

/-!
# The grammar of formulas

```text
prop = name "(" name ("," name)* ")"  /  capital  /  "(" form ")"  /  "~" prop
conj = prop ("/\" prop)*              left associative
disj = conj ("\/" conj)*              left associative
form = disj ("->" disj)*              right associative
     / "exists" name "," form  /  "forall" name "," form
```

After a conjunction or disjunction sign an operand must follow.  After an arrow without an operand
the formula ends before the arrow.  Keywords need no word boundary.

The readers recur with fuel.  Each level takes one unit and each bracket, negation or quantifier
passes a character, so four units for every character ahead are enough.
-/

namespace Sequitur.Grammar

/-- Read a name. -/
def name (c : Cursor) : Parse String :=
  andThen (word isLetter c) fun w c => .ok (String.ofList w, c)

/-- Read a predicate with its arguments. -/
def predicate (c : Cursor) : Parse Formula :=
  andThen (name c) fun n c =>
  andThen (token "(" c) fun _ c =>
  andThen (commaList name c) fun args c =>
  andThen (token ")" c) fun _ c =>
  .ok (.pred n (args.map .named), c)

/-- Read a propositional letter. -/
def letter (c : Cursor) : Parse Formula :=
  andThen (oneOf isCapital c) fun a c => .ok (.atom (String.ofList [a]), c)

/-- Join operands of a left associative connective. -/
def joinLeft (op : Formula → Formula → Formula) : List Formula → Formula
  | [] => .falsum
  | p :: ps => ps.foldl op p

/-- Join operands of a right associative connective. -/
def joinRight (op : Formula → Formula → Formula) : Formula → List Formula → Formula
  | p, [] => p
  | p, q :: qs => op p (joinRight op q qs)

/-- Read an operand and, if the sign `w` follows it, more of them. -/
def operands (w : String) (operand : Cursor → Parse Formula)
    (more : Cursor → Parse (List Formula)) (c : Cursor) : Parse (List Formula) :=
  andThen (operand c) fun p c =>
  match token w c with
  | .error _ => .ok ([p], c)
  -- behind the sign there is no way back
  | .ok (_, c) => andThen (more c) fun ps c => .ok (p :: ps, c)

mutual

/-- Read an operand of a conjunction. -/
def prop : Nat → Cursor → Parse Formula
  | 0, c => .error c.pos
  | n + 1, c =>
    -- a predicate before a letter, with which it may begin
    orElse (predicate c) fun _ =>
    orElse (letter c) fun _ =>
    orElse
      (andThen (token "(" c) fun _ c =>
       andThen (form n c) fun f c =>
       andThen (token ")" c) fun _ c =>
       .ok (f, c)) fun _ =>
    andThen (token "~" c) fun _ c =>
    andThen (prop n c) fun f c =>
    .ok (.neg f, c)

/-- Read the operands of a conjunction. -/
def conjuncts : Nat → Cursor → Parse (List Formula)
  | 0, c => .error c.pos
  | n + 1, c => operands "/\\" (prop n) (conjuncts n) c

/-- Read the operands of a disjunction. -/
def disjuncts : Nat → Cursor → Parse (List Formula)
  | 0, c => .error c.pos
  | n + 1, c =>
    operands "\\/" (fun c => andThen (conjuncts n c) fun ps c => .ok (joinLeft .conj ps, c))
      (disjuncts n) c

/-- Read further operands of an implication, each after an arrow. -/
def consequents : Nat → Cursor → List Formula × Cursor
  | 0, c => ([], c)
  | n + 1, c =>
    match token "->" c with
    | .error _ => ([], c)
    | .ok (_, c₁) =>
      match disjuncts n c₁ with
      -- the arrow is given back
      | .error _ => ([], c)
      | .ok (ps, c₂) =>
        let (qs, c₃) := consequents n c₂
        (joinLeft .disj ps :: qs, c₃)

/-- Read a formula. -/
def form : Nat → Cursor → Parse Formula
  | 0, c => .error c.pos
  | n + 1, c =>
    -- a keyword begins a formula only where no operand can be read
    orElse
      (andThen (disjuncts n c) fun ps c =>
       let (qs, c) := consequents n c
       .ok (joinRight .imp (joinLeft .disj ps) qs, c)) fun _ =>
    orElse
      (andThen (token "exists" c) fun _ c =>
       andThen (name c) fun v c =>
       andThen (token "," c) fun _ c =>
       andThen (form n c) fun f c =>
       .ok (.ex (.named v) f, c)) fun _ =>
    andThen (token "forall" c) fun _ c =>
    andThen (name c) fun v c =>
    andThen (token "," c) fun _ c =>
    andThen (form n c) fun f c =>
    .ok (.all (.named v) f, c)

end

/-- Read a formula where the cursor stands. -/
def formula (c : Cursor) : Parse Formula := form (4 * c.rest.length + 4) c

/-- Read with `reader` from the beginning of a text whose tabs are expanded first; `whole` requires
    that nothing but blanks is left over. -/
def readText {α : Type} (reader : Cursor → Parse α) (whole : Bool) (s : String) :
    Except Unreadable α :=
  let text := Text.expandTabs s.toList
  match reader (.start text) with
  | .error i => .error ⟨text, i⟩
  | .ok (a, c) =>
    if whole then
      match atEnd c with
      | .error i => .error ⟨text, i⟩
      | .ok _ => .ok a
    else .ok a

end Sequitur.Grammar

namespace Sequitur.Formula

/-- Read a formula from a whole text. -/
def parse (s : String) : Except Grammar.Unreadable Formula :=
  Grammar.readText Grammar.formula true s

/-- Read a formula from the beginning of a text. -/
def parseLeading (s : String) : Except Grammar.Unreadable Formula :=
  Grammar.readText Grammar.formula false s

/-- Read formulas separated by commas from a whole text. -/
def parseList (s : String) : Except Grammar.Unreadable (List Formula) :=
  Grammar.readText (Grammar.commaList Grammar.formula) true s

end Sequitur.Formula
