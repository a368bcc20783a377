import Sequitur.Report

/-!
# The command line

`sequitur FILE` checks a file and writes the report.
-/

open Sequitur

/-- Check the file that is named on the command line. -/
def main (args : List String) : IO UInt32 := do
  match args with
  | [path] =>
    let report := Report.ofFile {} (← IO.FS.readFile path)
    IO.print report.output
    match report.fault with
    | none => return 0
    | some f =>
      IO.eprintln f.message
      return 1
  | _ =>
    IO.eprintln "usage: sequitur FILE"
    return 2
