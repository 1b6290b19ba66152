import Reckoner.CommandLine

/-!
# The program

Reads its arguments, evaluates one expression and prints the result, or what is wrong.
-/

open Reckoner

/-- Evaluates the expression on the command line. -/
def main (arguments : List String) : IO UInt32 := do
  match CommandLine.parseArguments arguments with
  | .ok options =>
    let outcome := options.run
    IO.print outcome.stdout
    IO.eprint outcome.stderr
    return outcome.exitCode.toUInt32
  | .error stop =>
    if stop.exitCode = 0 then IO.println stop.message else IO.eprintln stop.message
    return stop.exitCode.toUInt32
