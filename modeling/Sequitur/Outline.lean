import Sequitur.Text.Space

/-!
# Outlines

A proof may mark its blocks by bars: each line of a block starts with a bar and a blank, a line of a
block in a block with two of them, and so on.  `Outline.toBraces` replaces the bars by a brace
before each block and one after it, and removes white space at the ends of the lines.

A block is written out when a line with fewer bars follows it; a block that no line follows is not
written out.
-/

namespace Sequitur.Outline

/-- What stands after the bar of a line, if it has one. -/
def barred? (line : String) : Option String :=
  match line.toList with
  | '|' :: ' ' :: cs => some (String.ofList cs)
  | _ => none

/-- A block between braces, once its lines are written out; without lines there is no block. -/
def enclose (write : List String → List String) (block : List String) : List String :=
  if block.isEmpty then [] else "\x7b" :: write block ++ ["\x7d"]

/-- Write out lines, where `block` holds the barred lines met since the last line without a bar and
    `write` writes out blocks. -/
def writeLines (write : List String → List String) : List String → List String → List String
  -- what is still in the block at the end is lost
  | _, [] => []
  | block, l :: ls =>
    match barred? l with
    | some inner => writeLines write (block ++ [inner]) ls
    | none => enclose write block ++ Text.trim l :: writeLines write [] ls

/-- Write out lines whose blocks are nested less than `depth` deep. -/
def writeNested : Nat → List String → List String
  | 0, _ => []
  | depth + 1, lines => writeLines (writeNested depth) [] lines

/-- A bound on how deep the blocks of a list of lines are nested: each level takes characters. -/
def depthBound (lines : List String) : Nat := lines.foldl (fun n l => n + l.length) 1

/-- Replace bars by braces. -/
def toBraces (lines : List String) : List String := writeNested (depthBound lines) lines

end Sequitur.Outline
