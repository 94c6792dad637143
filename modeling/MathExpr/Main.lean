import MathExpr.CommandLine.Run
/-!
# The command line program
-/

namespace MathExpr.CommandLine

/-- How the program is used. -/
def usage : String :=
  "usage: jme [-h] [-s RULES] [--tex] [--ast] [-D NAME=EXPR] [-v] expression\n"

/-- The number of random numbers that the program has in stock. -/
def stock : Nat := 10000

/-- The number of steps between zero and one that a random number can take, two to the power 53. -/
def steps : Nat := 9007199254740992

/-- A random number between zero and one. -/
def randomUnit : IO Float := do
  return Float.ofNat (← IO.rand 0 (steps - 1)) / Float.ofNat steps

/-- Why a request broke down. -/
def breakdownLine : Failure → String
  | .error e => errorLine e
  | .fault f => "  " ++ reprStr f ++ "\n"

/-- Carries out the request of a command line, and gives the status to end with. -/
def perform (words : List String) : IO UInt32 := do
  match Request.ofWords words with
  | .error .help =>
    (← IO.getStdout).putStr usage
    return 0
  | .error .misuse =>
    (← IO.getStderr).putStr usage
    return 2
  | .ok request =>
    let stream ← (List.range stock).mapM fun _ => randomUnit
    match (request.report.run.run ⟨stream, 0⟩).1 with
    | .ok report =>
      (← IO.getStdout).putStr report.output
      (← IO.getStderr).putStr report.errors
      return UInt32.ofNat report.status
    | .error e =>
      (← IO.getStderr).putStr (breakdownLine e)
      return 1

end MathExpr.CommandLine

/-- Carries out the request of the command line. -/
def main (words : List String) : IO UInt32 :=
  MathExpr.CommandLine.perform words
