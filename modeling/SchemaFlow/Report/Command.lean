import SchemaFlow.Declaration.Compile
import SchemaFlow.Execution.Log
import SchemaFlow.Report.Directory
import SchemaFlow.Report.Environment

/-!
# The report

The program checks the declaration of a chain without running a stage: it prints what the chain
needs and does, and every violation against its declared input.

* `Command.ofArguments` reads what is to be checked from the arguments and the environment.
* `Command.respond` is the answer once the declaration is read. It ends with 0 when the chain is
  consistent, with 1 when it is not, and with 2 when there is nothing to check.
-/

namespace SchemaFlow

/-- What a program prints, and the code that it ends with. -/
structure Response where
  exit : Nat := 0
  output : List String := []
  errors : List String := []
deriving Repr, DecidableEq

/-- Lines as they are printed. -/
def printed (lines : List String) : String := String.join (lines.map (· ++ "\n"))

/-- What is to be checked: a file, and the phases. -/
structure Command where
  file : String
  phases : List Phase
  quiet : Bool
deriving Repr, DecidableEq

/-- The phases that a word stands for. -/
def phasesOf? (word : String) : Option (List Phase) :=
  if word = "fit" then some [.fit]
  else if word = "transform" then some [.transform]
  else if word = "all" then some [.fit, .transform]
  else none

/-- The value of an option, given as `name=value` or as the argument after `name`; the first
    occurrence counts. -/
def optionValue (name : String) (fallback : Option String) : List String → Option String
  | [] => fallback
  | a :: rest =>
    if a = name then (rest.head?).or fallback
    else if (name ++ "=").toList.isPrefixOf a.toList then
      some (String.ofList (a.toList.drop (name.length + 1)))
    else optionValue name fallback rest

namespace Command

/-- The usage of the program. -/
def usage : Response :=
  { exit := 2
    errors :=
      ["Usage: node dist/src/runner.js --chain path/to/chain.json [--phase fit|transform|all]"] }

/-- Reads the command; `none` when no file or no phase is named. -/
def ofArguments (args : List String) (env : Environment) : Option Command :=
  let file := (optionValue "--chain" (env.find? "CHAIN_FILE") args).filter (· ≠ "")
  let defaultPhase := ((env.find? "CHECK_PHASE").filter (· ≠ "")).getD "all"
  let phase := (optionValue "--phase" (some defaultPhase) args).getD "all"
  match file, phasesOf? phase with
  | some file, some phases => some ⟨file, phases, env.find? "QUIET" == some "1"⟩
  | _, _ => none

/-- The lines that show a chain and its violations. -/
def reportLines (file : String) (c : Chain) (violations : List Violation) : List String :=
  let stages := " → ".intercalate c.names
  let head :=
    [Colour.cyan.paint "▶ chain" ++ " " ++ baseName file ++ " " ++
      Colour.gray.paint ("— " ++ stages),
    Colour.gray.paint ("  requires (fit)       " ++ Schema.text c.requiredFitInput),
    Colour.gray.paint ("  requires (transform) " ++ Schema.text c.requiredInput),
    Colour.gray.paint ("  produces             " ++ Produced.text c.producedOutput)]
  if violations.isEmpty then head ++ [Colour.green.paint "✓ consistent"]
  else
    head ++ violations.map (fun v => Colour.red.paint ("✗ " ++ v.text)) ++
      [Colour.red.paint s!"{violations.length} violation(s)"]

/-- The answer to something that went wrong. -/
def fatal (message : String) : Response := { exit := 2, errors := ["[fatal] " ++ message] }

/-- The answer to a command, given what its file holds. -/
def respond (c : Command) (content : Except ReadError String) : Response :=
  match content with
  | .error e => fatal e.message
  | .ok text =>
    let checked : Except Fault (Chain × List Violation) := do
      let compiled ← Compiled.ofText text
      let found ← compiled.checkPhases c.phases
      .ok (compiled.chain, found)
    match checked with
    | .error e => fatal e.message
    | .ok (chain, found) =>
      { exit := if found.isEmpty then 0 else 1
        output := if c.quiet then [] else reportLines c.file chain found }

end Command

/-- The variables of a program that starts in a directory with a settings file. -/
def Environment.inDirectory (env : Environment) (settingsFile : Except ReadError String) :
    Environment :=
  match settingsFile with
  | .ok text => env.extended (settings text)
  | .error _ => env

/-- **The whole program** on a snapshot of its directory. -/
def checkChainFile (args : List String) (env : Environment) (d : Directory) : Response :=
  match Command.ofArguments args (env.inDirectory (d.read ".env")) with
  | none => Command.usage
  | some c => c.respond (d.read c.file)

end SchemaFlow
