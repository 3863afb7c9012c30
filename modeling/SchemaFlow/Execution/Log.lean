import SchemaFlow.Contract.Violation

/-!
# Log lines

A run tells what it does in lines for a terminal, in colour. Three settings choose among them:
silence, a line for each stage, and the schemas around each stage. Lines that measure time leave
its text open until they are printed.
-/

namespace SchemaFlow

/-! ## 1. Colours -/

/-- The colours of a line. -/
inductive Colour
  | red
  | green
  | yellow
  | cyan
  | gray
deriving Repr, DecidableEq

/-- The number of a colour in a terminal. -/
def Colour.code : Colour → String
  | red => "31"
  | green => "32"
  | yellow => "33"
  | cyan => "36"
  | gray => "90"

/-- A text in a colour. -/
def Colour.paint (c : Colour) (s : String) : String := "\x1b[" ++ c.code ++ "m" ++ s ++ "\x1b[0m"

/-! ## 2. Lines -/

/-- A line of the log. -/
inductive LogLine
  | info (text : String)
  | warning (text : String)
  /-- a line that ends in the time that something took -/
  | timed (text : String)
deriving Repr, DecidableEq

namespace LogLine

/-- Whether a line warns. -/
def isWarning : LogLine → Bool
  | warning _ => true
  | _ => false

/-- The text of a line, given the text of the time. -/
def render (elapsed : String) : LogLine → String
  | info s => s
  | warning s => s
  | timed s => s ++ " " ++ Colour.gray.paint ("(" ++ elapsed ++ ")")

end LogLine

/-! ## 3. Settings -/

/-- What is logged. -/
structure LogSettings where
  quiet : Bool := false
  stages : Bool := true
  schemas : Bool := false
deriving Repr, DecidableEq

/-- Reads the settings from an environment. Silence wins over the other two. -/
def LogSettings.ofEnvironment (valueOf : String → Option String) : LogSettings :=
  let quiet := valueOf "QUIET" == some "1"
  { quiet := quiet
    stages := !quiet && valueOf "LOG_STAGES" != some "0"
    schemas := !quiet && valueOf "LOG_SCHEMAS" == some "1" }

/-- The lines that report violations under a heading. -/
def violationLines (settings : LogSettings) (heading : String) (vs : List Violation) :
    List LogLine :=
  if settings.quiet || vs.isEmpty then []
  else
    .warning (Colour.yellow.paint s!"  {heading}: {vs.length} violation(s)") ::
      vs.map fun v => .warning (Colour.yellow.paint s!"    ✗ {v.text}")

end SchemaFlow
