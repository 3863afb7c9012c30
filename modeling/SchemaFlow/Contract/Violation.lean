import SchemaFlow.Contract.Slot
import SchemaFlow.TypeSpec.Compatibility
import SchemaFlow.TypeSpec.Printer

/-!
# Violations

A violation is a finding about a stage: what was expected there, and what was found. Its kind, its
place and its wording all follow from the finding. `Violation.text` is the line that shows it.
-/

namespace SchemaFlow

/-- What was found. -/
inductive Finding
  /-- a declared name without a value -/
  | missing (heading : Heading) (key : String) (expected : TypeSpec)
  /-- a value that does not fit its declared type -/
  | misfit (heading : Heading) (key : String) (expected observed : TypeSpec) (mismatch : Mismatch)
  /-- a parameter that the stage does not declare, its name as it is shown, and as a place if it has
      one -/
  | undeclared (shown : String) (key : Option String) (observed : TypeSpec)
      (declared : List String)
  /-- a transform without the state that a fit leaves behind -/
  | notFitted (state : List String)
  /-- parameters for a stage that the chain does not have -/
  | unknownStage (stages : List String)
  /-- parameters that are no table -/
  | parametersNotATable
deriving Inhabited

/-- A finding about a stage. -/
structure Violation where
  stage : Option String := none
  finding : Finding
deriving Inhabited

namespace Finding

/-- The sort of a finding. -/
def kind : Finding → String
  | missing .. => "MissingKey"
  | misfit _ _ _ _ .type => "TypeMismatch"
  | misfit _ _ _ _ .shape => "ShapeMismatch"
  | undeclared .. => "UnexpectedParameter"
  | notFitted _ => "NotFitted"
  | unknownStage _ => "UnexpectedParameter"
  | parametersNotATable => "TypeMismatch"

/-- The heading that a finding stands under. -/
def heading : Finding → Heading
  | missing heading _ _ => heading
  | misfit heading _ _ _ _ => heading
  | notFitted _ => .slot .fittedState
  | _ => .slot .fitParameters

/-- The name that a finding is about. -/
def key? : Finding → Option String
  | missing _ key _ => some key
  | misfit _ key _ _ _ => some key
  | undeclared _ key _ _ => key
  | _ => none

/-- The type that was expected. -/
def expected? : Finding → Option TypeSpec
  | missing _ _ t => some t
  | misfit _ _ t _ _ => some t
  | _ => none

/-- The type that was observed. -/
def observed? : Finding → Option TypeSpec
  | misfit _ _ _ t _ => some t
  | undeclared _ _ t _ => some t
  | _ => none

end Finding

namespace Violation

/-- The wording of a violation. What is said about a key starts with the stage; what is said about
    parameters for a whole stage names it inside. -/
def message (v : Violation) : String :=
  let name := v.stage.getD ""
  let lead := match v.stage with
    | some stage => stage ++ ": "
    | none => ""
  match v.finding with
  | .missing heading key expected =>
    s!"{lead}{heading.label} '{key}' ({expected.text}) is missing"
  | .misfit heading key expected observed _ =>
    s!"{lead}{heading.label} '{key}' expects {expected.text} but got {observed.text}"
  | .undeclared shown _ _ declared =>
    let names := if declared.isEmpty then "none" else ", ".intercalate declared
    s!"{lead}fit parameter '{shown}' is not declared (declared: {names})"
  | .notFitted state =>
    let names := ", ".intercalate state
    s!"{lead}transform needs fitted state ({names}) but the stage has not been fit"
  | .unknownStage stages =>
    let names := ", ".intercalate stages
    s!"parameters given for unknown stage '{name}' (stages: {names})"
  | .parametersNotATable =>
    s!"parameters for '{name}' must be an object of name → value"

/-- The line that shows a violation: its kind, its place, and its wording. Empty parts of the place
    are left out. -/
def text (v : Violation) : String :=
  let parts := [v.stage.getD "", v.finding.heading.name, v.finding.key?.getD ""]
  let place := " › ".intercalate (parts.filter (· ≠ ""))
  s!"[{v.finding.kind}] {place}: {v.message}"

end Violation

end SchemaFlow
