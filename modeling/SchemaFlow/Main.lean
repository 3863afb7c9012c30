import SchemaFlow.Churn
import SchemaFlow.Report.Command

/-!
# The program

Checks the declaration of a chain, or with `--churn` as its first argument runs the example
pipeline. All that it decides is decided in `Command` and `Churn`; here files and variables are
read, and lines are printed.
-/

open SchemaFlow

/-- The variables that the program knows. -/
def knownVariables : List String :=
  ["QUIET", "LOG_STAGES", "LOG_SCHEMAS", "CHAIN_FILE", "CHECK_PHASE"]

/-- Reads the variables that are set. -/
def readEnvironment : IO Environment := do
  let found ← knownVariables.mapM fun name => do
    return (← IO.getEnv name).map fun value => (name, value)
  return found.filterMap id

/-- Reads a file. -/
def readText (path : String) : IO (Except ReadError String) := do
  try
    return .ok (← IO.FS.readFile path)
  catch
    | .noFileOrDirectory .. => return .error (.missing path)
    | e => return .error (.other (toString e))

/-- Prints a response. -/
def printResponse (r : Response) : IO UInt32 := do
  IO.print (printed r.output)
  IO.eprint (printed r.errors)
  return r.exit.toUInt32

/-- The entry of the program. -/
def main (args : List String) : IO UInt32 := do
  let env := (← readEnvironment).inDirectory (← readText ".env")
  match args with
  | "--churn" :: _ =>
    let content ← match env.find? "CHAIN_FILE" with
      | some path => do
        let text ← readText path
        pure (some text)
      | none => pure none
    printResponse (Churn.run "0ms" env content)
  | args =>
    match Command.ofArguments args env with
    | none => printResponse Command.usage
    | some c => printResponse (c.respond (← readText c.file))
