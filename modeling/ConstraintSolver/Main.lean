import ConstraintSolver.Cli.Run
import ConstraintSolver.Text.Seconds

/-! # The command line program -/

open ConstraintSolver

/-- Runs the command line and prints what it has to tell. -/
def main (args : List String) : IO UInt32 := do
  let before ← IO.monoNanosNow
  let run ← IO.lazyPure fun _ => Cli.run args
  let after ← IO.monoNanosNow
  let (code, lines) := run.result (secondsText (after - before))
  for line in run.complaint do
    IO.eprintln line
  for line in lines do
    IO.println line
  return code.toUInt32
