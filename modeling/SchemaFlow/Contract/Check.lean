import SchemaFlow.Contract.Basic
import SchemaFlow.Contract.Violation
import SchemaFlow.Observation

/-!
# Checking data against a contract

A check compares what a contract declares with the data at hand, and returns every violation in
the order of the declaration; it never stops at the first. Values are observed under their declared
types, so a value may also be a type, which stands for data of that type.
-/

namespace SchemaFlow

/-- The finding about one declared name, if there is one. -/
def checkKey (g : Graph) (heading : Heading) (data : Entries Value) (key : String)
    (expected : TypeSpec) : Except Fault (Option Finding) :=
  match (data.find? key).getD .absent with
  | .absent => .ok (some (.missing heading key expected))
  | v => do
    let observed ← g.observe (some expected) v
    .ok ((expected.diagnose observed).map (.misfit heading key expected observed))

/-- Checks every declared name. -/
def checkSchema (g : Graph) (stage : Option String) (heading : Heading) (data : Entries Value) :
    Schema → Except Fault (List Violation)
  | [] => .ok []
  | (key, expected) :: rest => do
    let found ← checkKey g heading data key expected
    let later ← checkSchema g stage heading data rest
    .ok (match found with
      | some f => ⟨stage, f⟩ :: later
      | none => later)

namespace Contract

/-- The name of a parameter as a place; what does not count as given is none, unless it is a text. -/
def placeOf (key : Value) (shown : String) : Option String :=
  match key with
  | .text name => some name
  | key => if key.isGiven then some shown else none

/-- The parameters that a contract does not declare. A key that cannot be shown is a fault, but only
    of a parameter that is there and not declared. -/
def undeclared (g : Graph) (c : Contract) (stage : Option String) :
    List (Value × Value) → Except Fault (List Violation)
  | [] => .ok []
  | (key, v) :: rest =>
    if v.isAbsent then undeclared g c stage rest
    else do
      let name ← g.nameOfKey? key
      if (name.map c.fitParameters.has).getD false then undeclared g c stage rest
      else do
        let t ← g.observe none v
        let shown ← g.textPart key
        let later ← undeclared g c stage rest
        .ok (⟨stage, .undeclared shown (placeOf key shown) t c.fitParameters.names⟩ :: later)

/-- The violations of fitting a stage on `data`; the parameters are a value still to be read, an
    absent one being empty. -/
def checkFit (g : Graph) (c : Contract) (stage : Option String) (data : Entries Value)
    (parameters : Value) : Except Fault (List Violation) := do
  let parameters := parameters.orEmpty
  let input ← checkSchema g stage (.slot .fitRequires) data c.fitRequires
  let given ← g.payload parameters
  let declared ← checkSchema g stage (.slot .fitParameters) given c.fitParameters
  let all ← g.parameterEntries parameters
  let others ← c.undeclared g stage all
  .ok (input ++ declared ++ others)

/-- A stage that keeps state and has not been fitted. -/
def fitMissing (c : Contract) (stage : Option String) (fitted : Bool) : List Violation :=
  if !fitted && c.needsFit then [⟨stage, .notFitted c.fittedState.names⟩] else []

/-- The violations of transforming `data`. -/
def checkTransform (g : Graph) (c : Contract) (stage : Option String) (data : Entries Value)
    (fitted : Bool) : Except Fault (List Violation) := do
  let input ← checkSchema g stage (.slot .transformRequires) data c.transformRequires
  .ok (input ++ c.fitMissing stage fitted)

/-- What a phase demands of the data. -/
def demand (c : Contract) : Phase → Slot × Schema
  | .fit => (.fitRequires, c.fitRequires)
  | .transform => (.transformRequires, c.transformRequires)

/-- The violations of a phase where the data is known by its declared types only. -/
def checkStatic (g : Graph) (c : Contract) (stage : Option String) (data : Entries Value)
    (phase : Phase) : Except Fault (List Violation) :=
  checkSchema g stage (.slot (c.demand phase).1) data (c.demand phase).2

end Contract

end SchemaFlow
