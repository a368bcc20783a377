import Sequitur.Grammar.Proof
import Sequitur.Outline
import Sequitur.Proof.Check
import Sequitur.Text.Lines

/-!
# Checking a file

The first line of a file lists the formulas to be shown, the others are a proof in outline.  The
proof is checked; each formula that the main block shows is reported with the hypotheses that the
block rests on, instances of the excluded middle apart.
-/

namespace Sequitur

/-- Put a proof, read from a whole text, into a context.  The blocks that are complete are added
    whether or not the rest can be read. -/
def Context.addText (ctx : Context) (s : String) : Option Grammar.Unreadable × Context :=
  let text := Grammar.readProof s
  match text.result with
  | .error e => (some e, ctx.addBlocks text.blocks)
  | .ok _ => (none, ctx.addBlocks text.blocks)

/-- A formula that was shown, with the hypotheses that it rests on. -/
structure Sequent where
  hypotheses : List Formula
  conclusion : Formula
  deriving DecidableEq, Repr, Inhabited

/-- The written form of a sequent, on a line of its own. -/
def Sequent.text (s : Sequent) : String :=
  Text.braced (s.hypotheses.map Formula.text) ++ " |- " ++ s.conclusion.text ++ "\n"

/-- What checking a file gives. -/
structure Report where
  /-- What is written while the file is read and its proof checked. -/
  transcript : String := ""
  /-- What was shown. -/
  sequents : List Sequent := []
  /-- What broke the check off, if anything did. -/
  fault : Option Fault := none
  /-- The standing bindings of matching afterwards. -/
  standing : Bindings := {}
  deriving DecidableEq, Repr, Inhabited

namespace Report

/-- What is written: the transcript and then the sequents. -/
def output (r : Report) : String := r.transcript ++ String.join (r.sequents.map Sequent.text)

/-- The formulas that are no instances of the excluded middle. -/
def dropExcludedMiddle (standing : Bindings) : List Formula → List Formula × Bindings
  | [] => ([], standing)
  | f :: fs =>
    let (isInstance, standing) := f.isExcludedMiddle standing
    -- each match hands its standing table to the next
    let (rest, standing) := dropExcludedMiddle standing fs
    (if isInstance then rest else f :: rest, standing)

/-- Report each formula that is among the results; the first that is not breaks the report off. -/
def obligations (hypotheses results : List Formula) (standing : Bindings) : List Formula → Report
  | [] => { standing := standing }
  | f :: fs =>
    if f ∈ results then
      let r := obligations hypotheses results standing fs
      { r with sequents := ⟨hypotheses, f⟩ :: r.sequents }
    -- what was reported before it stays reported
    else { fault := some (.unmetObligation f), standing := standing }

/-- Report on the main block of a context that was checked. -/
def conclude (ctx : Context) (goals : List Formula) : Report :=
  match ctx.main with
  | none => { standing := ctx.standing }
  | some b =>
    match ctx.types.get? b with
    | none => { fault := some (.untypedBlock (ctx.blockText b)), standing := ctx.standing }
    | some type =>
      let (hypotheses, standing) := dropExcludedMiddle ctx.standing type.hypotheses
      obligations hypotheses type.results standing goals

/-- Report that a text could not be read. -/
def unreadable (standing : Bindings) (e : Grammar.Unreadable) : Report :=
  { transcript := e.explain ++ "\n", standing := standing }

/-- Check the proof in `lines` for `goals`. -/
def ofProof (standing : Bindings) (goals : List Formula) (lines : List String) : Report :=
  let text := String.intercalate "\n" (Outline.toBraces lines)
  match ({ standing := standing } : Context).addText text with
  | (some e, ctx) => unreadable ctx.standing e
  | (none, ctx) =>
    let run := ctx.check
    match run.result with
    | .error f =>
      { transcript := run.output, fault := some f, standing := run.context.standing }
    | .ok false => { transcript := run.output, standing := run.context.standing }
    | .ok true => { conclude run.context goals with transcript := run.output }

/-- Check a file. -/
def ofFile (standing : Bindings) (file : String) : Report :=
  match Text.fileLines file with
  | [] => { fault := some .emptyFile, standing := standing }
  | first :: rest =>
    match Formula.parseList first with
    | .error e => unreadable standing e
    | .ok goals => ofProof standing goals rest

end Report

end Sequitur
