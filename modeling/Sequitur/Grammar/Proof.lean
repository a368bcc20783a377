import Sequitur.Grammar.Formula
import Sequitur.Proof.Script

/-!
# The grammar of proofs

```text
line    = number "." form reason ";"        no blank before the dot
reason  = rule citations?
cited   = number "-" number  /  number ("," number)*
item    = line  /  "{" proof "}"  /  comment
comment = "/*" anything up to the next "*/"
proof   = item+
```

A block is complete as soon as its items have been read, inner blocks before outer ones.  Blocks
that are complete stay so when reading fails later on: a reading carries them along, beside the
script of what it has read.
-/

namespace Sequitur.Grammar

/-- The numbers from `a` to `b`. -/
def numberRange (a b : Nat) : List Int := (List.range' a (b + 1 - a)).map Int.ofNat

/-- Read the number that starts a line, with its dot. -/
def lineStart (c : Cursor) : Parse Int :=
  andThen (number c) fun n c =>
  -- not a token: no blank may stand before the dot
  andThen (exactly ['.'] c) fun _ c =>
  .ok (Int.ofNat n, c)

/-- Read the numbers of cited lines. -/
def citations (c : Cursor) : Parse (List Int) :=
  -- a range first, since a list would stop at the dash
  orElse
    (andThen (number c) fun a c =>
     andThen (token "-" c) fun _ c =>
     andThen (number c) fun b c =>
     .ok (numberRange a b, c)) fun _ =>
  andThen (commaList number c) fun ns c => .ok (ns.map Int.ofNat, c)

/-- Read the reason of a line. -/
def reason (c : Cursor) : Parse Reason :=
  andThen (word isRuleChar c) fun rule c =>
  let (cited, c) := optional c (citations c) []
  .ok (⟨String.ofList rule, cited⟩, c)

/-- Read a line with its semicolon. -/
def line (c : Cursor) : Parse Line :=
  andThen (lineStart c) fun n c =>
  andThen (formula c) fun f c =>
  andThen (reason c) fun r c =>
  andThen (token ";" c) fun _ c =>
  .ok (⟨n, f, r⟩, c)

/-- The place after the next end of a comment. -/
def commentEnd (pos : Nat) : List Char → Option Cursor
  | [] => none
  | '*' :: '/' :: cs => some ⟨pos + 2, cs⟩
  | _ :: cs => commentEnd (pos + 1) cs

/-- Read a comment. -/
def comment (c : Cursor) : Parse Unit :=
  match token "/*" c with
  | .error i => .error i
  | .ok (_, c₁) =>
    match commentEnd c₁.pos c₁.rest with
    | some c₂ => .ok ((), c₂)
    -- an open comment fails where it begins
    | none => .error c.skipBlanks.pos

/-- A result with the blocks that were completed on the way, in the order of completion. -/
structure Reading (α : Type) where
  blocks : List (List Line)
  result : Parse α
  deriving Repr, Inhabited

mutual

/-- Read an item: a line, a nested block, or a comment, which leaves nothing in the script. -/
def item : Nat → Cursor → Reading Script
  | 0, c => ⟨[], .error c.pos⟩
  | n + 1, c =>
    match line c with
    | .ok (l, c₁) => ⟨[], .ok (.line l .done, c₁)⟩
    | .error i =>
      let inner := embedded n c
      match inner.result with
      | .ok _ => inner
      | .error j =>
        match comment c with
        -- blocks that were completed in what is no block after all are kept
        | .ok (_, c₁) => ⟨inner.blocks, .ok (.done, c₁)⟩
        | .error k => ⟨inner.blocks, .error (max (max i j) k)⟩

/-- Read a block between braces. -/
def embedded : Nat → Cursor → Reading Script
  | 0, c => ⟨[], .error c.pos⟩
  | n + 1, c =>
    match token "\x7b" c with
    | .error i => ⟨[], .error i⟩
    | .ok (_, c₁) =>
      let inner := proof n c₁
      match inner.result with
      | .error i => ⟨inner.blocks, .error i⟩
      | .ok (s, c₂) =>
        match token "\x7d" c₂ with
        | .error i => ⟨inner.blocks, .error i⟩
        | .ok (_, c₃) => ⟨inner.blocks, .ok (.block s .done, c₃)⟩

/-- Read as many items as there are. -/
def items : Nat → Cursor → List (List Line) × Script × Cursor
  | 0, c => ([], .done, c)
  | n + 1, c =>
    let first := item n c
    match first.result with
    -- here, too, the blocks are kept
    | .error _ => (first.blocks, .done, c)
    | .ok (s, c₁) =>
      let (blocks, more, c₂) := items n c₁
      (first.blocks ++ blocks, s.append more, c₂)

/-- Read a block: one or more items.  The block is completed by it. -/
def proof : Nat → Cursor → Reading Script
  | 0, c => ⟨[], .error c.pos⟩
  | n + 1, c =>
    let first := item n c
    match first.result with
    | .error i => ⟨first.blocks, .error i⟩
    | .ok (s, c₁) =>
      let (blocks, more, c₂) := items n c₁
      ⟨first.blocks ++ blocks ++ [(s.append more).own], .ok (s.append more, c₂)⟩

end

/-- What reading a proof from a whole text gives. -/
structure ProofText where
  /-- The blocks completed, inner before outer; if all was read, the last is the whole proof. -/
  blocks : List (List Line)
  /-- What the whole text is made of, or why it could not be read. -/
  result : Except Unreadable Script
  deriving Repr, Inhabited

/-- Read a proof from a whole text. -/
def readProof (s : String) : ProofText :=
  let text := Text.expandTabs s.toList
  let reading := proof (3 * text.length + 3) (.start text)
  match reading.result with
  | .error i => ⟨reading.blocks, .error ⟨text, i⟩⟩
  | .ok (script, c) =>
    match atEnd c with
    | .error i => ⟨reading.blocks, .error ⟨text, i⟩⟩
    | .ok _ => ⟨reading.blocks, .ok script⟩

end Sequitur.Grammar
