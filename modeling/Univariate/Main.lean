import Univariate.CommandLine
import Univariate.Double

/-!
# The program

Reads all of standard input, and prints what the command line answers.
-/

open Univariate in
/-- Runs the command line on doubles. Nothing is read if the arguments cannot be used. -/
def main (arguments : List String) : IO UInt32 := do
  let input ←
    match CommandLine.sessionOf (α := Float) arguments with
    | .ok _ => (← IO.getStdin).readBinToEnd
    | .error _ => pure .empty
  let outcome := CommandLine.run Float arguments input.toList
  outcome.printed.forM IO.println
  outcome.reports.forM fun report => IO.eprintln ("Error: " ++ report)
  (outcome.failure.getD []).forM IO.eprintln
  return outcome.code
