import SchemaFlow.Contract.Slot
import SchemaFlow.Text.Quoted
import SchemaFlow.TypeSpec.Parser

/-!
# Faults

What can go wrong while types, contracts, chains and declarations are built, and while values are
observed. A `Defect` is the cause, and `Defect.message` its wording; a fault adds where the defect
was found. `message_malformed` shows how the place is put before the wording.
-/

namespace SchemaFlow

/-- Names in a row. -/
def listed (names : List String) : String := ", ".intercalate names

/-- The cause of a refusal to build something. -/
inductive Defect
  /-- a word that is no scalar kind; `shown` is how the value is shown -/
  | unknownKind (shown what : String)
  /-- a value that is no type -/
  | notAType (what : String)
  | dimensionsNotAList
  | notASize (index : Nat) (shown : String)
  | blankLabel
  | notASchema
  | notAProducedSchema
  | emptyKey
  | setWithoutType
  | notAProduction
  | declarationNotATable
  | unknownSlot (key : String)
  | stageNameMissing
  | stageNameSeparated (name : String)
  | stageNameTaken (name : String)
  | noStages
  /-- a text that does not read as a type -/
  | unreadable (source : String) (failure : Reading.Failure)
  | notATypeText
  | notAProductionText
  | stageNotATable
  | stageUnnamed
  | unknownStageField (key : String)
  | chainNotATable
  | noChain
  | stagesNotAList
  | invalidJson
deriving Repr, DecidableEq

/-- The wording of a dimension that is no size. -/
def sizeMessage (index : Nat) (shown : String) : String :=
  s!"dimension {index} must be a positive integer or unconstrained, got {shown}"

/-- The wording of a failure to read a type. -/
def Reading.Reason.message : Reading.Reason → String
  | .expected what => "expected " ++ what.text
  | .notASize index size => sizeMessage index size
  | .sealedField name => s!"the field name '{name}' is sealed"

/-- The wording of a defect. -/
def Defect.message : Defect → String
  | unknownKind shown what =>
    let kinds := listed (ScalarKind.all.map ScalarKind.name)
    s!"unknown scalar kind {shown} for {what} (expected one of {kinds})"
  | notAType what => s!"{what} is not a type descriptor"
  | dimensionsNotAList => "array dimensions must be a list"
  | notASize index shown => sizeMessage index shown
  | blankLabel => "opaque label must be a non-empty string"
  | notASchema => "expected an object of key → type"
  | notAProducedSchema => "expected an object of key → type or operation"
  | emptyKey => "empty key"
  | setWithoutType => "set() needs a type descriptor"
  | notAProduction => "not a type descriptor or schema operation"
  | declarationNotATable => "declaration must be an object"
  | unknownSlot key => s!"unknown field '{key}' (expected {listed Slot.names})"
  | stageNameMissing => "stage name must be a non-empty string"
  | stageNameSeparated name => s!"stage name '{name}' must not contain '/'"
  | stageNameTaken name => s!"duplicate stage name '{name}'"
  | noStages => "a chain needs at least one stage"
  | unreadable source failure =>
    let offset := Text.offsetOf source.toList failure.rest
    s!"cannot parse type {Text.quoted source} at offset {offset}: {failure.reason.message}"
  | notATypeText => "expected a type string"
  | notAProductionText =>
    "expected a type, \"drop\" or \x7b \"modify\": \x7b...\x7d \x7d"
  | stageNotATable => "stage must be an object"
  | stageUnnamed => "stage needs a string 'name'"
  | unknownStageField key => s!"unknown field '{key}' (expected name, {listed Slot.names})"
  | chainNotATable => "chain declaration must be an object"
  | noChain =>
    "no chain found: expected \x7b \"stages\": [...] \x7d or " ++
      "\x7b \"chain\": \x7b \"stages\": [...] \x7d \x7d"
  | stagesNotAList => "'stages' must be a list"
  | invalidJson => "invalid JSON"

/-- A fault. -/
inductive Fault
  /-- something that cannot be built; the path says where, if it is known -/
  | malformed (path : Option String) (defect : Defect)
  /-- an operation on a value for which it is not defined -/
  | illTyped
  /-- a name that a table cannot take, because the table's ancestor keeps it for itself -/
  | sealed (name : String)
  /-- an observation that would not end: a map that is reached from one of its own keys, or a
      declaration that contains itself -/
  | endless
deriving Repr, DecidableEq

namespace Fault

/-- The wording of a name that is kept by an ancestor. -/
def sealedMessage (name : String) : String :=
  s!"Cannot assign to read only property '{name}' of object '#<Object>'"

/-- The wording of a fault. A path stands in front, unless it is empty. -/
def message : Fault → String
  | malformed path defect =>
    match path with
    | some p => if p = "" then defect.message else p ++ ": " ++ defect.message
    | none => defect.message
  | illTyped => "a value of the wrong kind"
  | sealed name => sealedMessage name
  | endless => "a value without end"

theorem message_malformed {p : String} (hp : p ≠ "") (d : Defect) :
    (malformed (some p) d).message = p ++ ": " ++ d.message := by
  simp [message, hp]

end Fault

/-- Refuses with a defect found at a path. -/
def refuse {α : Type} (path : String) (defect : Defect) : Except Fault α :=
  .error (.malformed (some path) defect)

/-- Refuses with a defect whose place is not known. -/
def refuseHere {α : Type} (defect : Defect) : Except Fault α := .error (.malformed none defect)

/-- Reads a type; what stops the reading is the defect. -/
def TypeSpec.parse (source : String) : Except Fault TypeSpec :=
  match TypeSpec.read source.toList with
  | .ok t => .ok t
  | .error ⟨_, .sealedField name⟩ => .error (.sealed name)
  | .error failure => refuseHere (.unreadable source failure)

end SchemaFlow
