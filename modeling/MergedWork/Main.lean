import MergedWork.CommandLine

/-!
# The program

Runs one command and prints its output. Archives are kept for the length of a run, so that each
run starts from an empty one.
-/

/-- Runs the command that the arguments stand for. -/
def main (arguments : List String) : IO UInt32 := do
  let outcome := MergedWork.CommandLine.run arguments []
  IO.print outcome.output
  IO.eprint outcome.errors
  return outcome.code
