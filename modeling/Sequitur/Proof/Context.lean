import Sequitur.Proof.Argument
import Sequitur.Proof.Scope
import Sequitur.Sorting

/-!
# Proof contexts

A context holds the lines and blocks of a proof and what checking has found out about them.

Lines and blocks have an identity of their own.  Two lines may bear the same number, in one block or
in two; the number then stands for the line that was added last, while a block goes on to hold the
lines that it was made of.  So lines and blocks are kept in the order in which they were made, and
everything else refers to them by their places (`LineId`, `BlockId`).
-/

namespace Sequitur

/-- A line with what checking has found out about it. -/
structure Record where
  line : Line
  /-- What the reason turned out to mean when the line was last examined. -/
  argument : Option Argument := none
  /-- The variable context. -/
  scope : Scope := {}
  deriving DecidableEq, Repr, Inhabited

/-- The lines of a block, by number. -/
structure Block where
  members : Table Int LineId := {}
  deriving DecidableEq, Repr, Inhabited

/-- The place of a block among the blocks of a context. -/
abbrev BlockId := Nat

/-- What a block shows: its hypotheses and the formulas of all its lines. -/
structure BlockType where
  hypotheses : List Formula := []
  results : List Formula := []
  deriving DecidableEq, Repr, Inhabited

/-- Lines, blocks and what is known about them. -/
structure Context where
  /-- All lines ever made. -/
  records : List Record := []
  /-- All blocks ever made. -/
  blocks : List Block := []
  /-- The line that each number stands for. -/
  lines : Table Int LineId := {}
  /-- The block that has exactly these line numbers, which are sorted. -/
  registered : Table (List Int) BlockId := {}
  /-- The types of the blocks that are complete. -/
  types : Table BlockId BlockType := {}
  /-- The block that was added last. -/
  main : Option BlockId := none
  /-- The variables that are in use. -/
  constants : List Variable := []
  /-- The dependence sets. -/
  store : Store := {}
  /-- The standing bindings of matching. -/
  standing : Bindings := {}
  deriving DecidableEq, Repr, Inhabited

namespace Context

/-- A line and what is known about it. -/
def record (ctx : Context) (id : LineId) : Record := ctx.records.getD id default

/-- A block. -/
def block (ctx : Context) (b : BlockId) : Block := ctx.blocks.getD b default

/-- The variable context of a line at the moment. -/
def variablesOf (ctx : Context) (id : LineId) : VariableContext :=
  ctx.store.view (ctx.record id).scope

/-- The lines of a block, in its order. -/
def blockLines (ctx : Context) (b : BlockId) : List Line :=
  (ctx.block b).members.values.map fun id => (ctx.record id).line

/-- The written form of a block: its lines. -/
def blockText (ctx : Context) (b : BlockId) : String :=
  String.intercalate "\n" ((ctx.blockLines b).map Line.text)

/-- Make a line, with a variable context of its own. -/
def newLine (ctx : Context) (line : Line) (vars : VariableContext) : Context × LineId :=
  let (store, scope) := ctx.store.allocAll vars
  ({ ctx with store := store, records := ctx.records ++ [{ line := line, scope := scope }] },
    ctx.records.length)

/-- Let the number of a line stand for it. -/
def enter (ctx : Context) (id : LineId) : Context :=
  { ctx with lines := ctx.lines.put (ctx.record id).line.number id }

/-- Make lines, each with a variable context of its own. -/
def newLines (ctx : Context) : List (Line × VariableContext) → Context × List (Int × LineId)
  | [] => (ctx, [])
  | (l, vars) :: ls =>
    let (ctx, id) := ctx.newLine l vars
    let (ctx, ids) := newLines ctx ls
    (ctx, (l.number, id) :: ids)

/-- Make a block of new lines.  Of lines with the same number the last counts, in the place of the
    first. -/
def newBlock (ctx : Context) (ls : List (Line × VariableContext)) : Context × BlockId :=
  let (ctx, ids) := ctx.newLines ls
  -- a line whose number comes again is made, but is no member
  ({ ctx with blocks := ctx.blocks ++ [⟨.ofList ids⟩] }, ctx.blocks.length)

/-- Add a block: its numbers stand for its lines from now on, and it becomes the main block. -/
def register (ctx : Context) (b : BlockId) : Context :=
  let members := (ctx.block b).members
  { ctx with
    lines := ctx.lines.putAll members
    -- an older block with the same numbers is no longer found
    registered := ctx.registered.put (sortNumbers members.keys) b
    main := some b }

/-- Make a block of new lines with the given variable contexts and add it. -/
def addBlockWith (ctx : Context) (ls : List (Line × VariableContext)) : Context × BlockId :=
  let (ctx, b) := ctx.newBlock ls
  (ctx.register b, b)

/-- Make a block of new lines and add it. -/
def addBlock (ctx : Context) (ls : List Line) : Context × BlockId :=
  ctx.addBlockWith (ls.map fun l => (l, {}))

/-- Add blocks in their order. -/
def addBlocks (ctx : Context) (bs : List (List Line)) : Context :=
  bs.foldl (fun ctx ls => (ctx.addBlock ls).1) ctx

/-- Change what is known about a line. -/
def modifyRecord (ctx : Context) (id : LineId) (f : Record → Record) : Context :=
  { ctx with records := ctx.records.modify id f }

/-- Add variables to those in use. -/
def addConstants (ctx : Context) (vs : List Variable) : Context :=
  { ctx with constants := ctx.constants ++ vs.filter fun v => v ∉ ctx.constants }

/-- Find the type of a block: the formulas of its assumptions and of all its lines.  Every line has
    to have been examined. -/
def compile (ctx : Context) (b : BlockId) : Except Fault BlockType × Context :=
  let records := (ctx.block b).members.values.map ctx.record
  if records.all fun r => r.argument.isSome then
    -- by what the reasons turned out to mean, not by the names of the rules
    let assumed := records.filter fun r => r.argument.any Argument.isAssumption
    let type : BlockType :=
      ⟨(assumed.map fun r => r.line.formula).eraseDups,
        (records.map fun r => r.line.formula).eraseDups⟩
    (.ok type, { ctx with types := ctx.types.put b type })
  else (.error .unexaminedLine, ctx)

end Context

end Sequitur
