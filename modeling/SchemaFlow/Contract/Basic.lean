import SchemaFlow.Production.Typed

/-!
# Contracts

The contract of a stage: what it reads in either phase, the parameters of its fit, the state that
fitting leaves behind, and what it does to the data. `Graph.contractOf` reads a declaration; slots
that it leaves out are empty, and names that are no slots are refused.
-/

namespace SchemaFlow

/-- The contract of a stage. -/
structure Contract where
  fitRequires : Schema := []
  transformRequires : Schema := []
  fitParameters : Schema := []
  fittedState : Schema := []
  produced : Produced := []
deriving Inhabited

namespace Contract

/-- A stage that keeps state has to be fitted before it transforms. -/
def needsFit (c : Contract) : Bool := !c.fittedState.isEmpty

/-- What fitting a chain demands of the stage's input. The data is transformed through every
    stage, so one that fits on nothing still reads its transform input. -/
def fitDemand (c : Contract) : Schema :=
  if c.fitRequires.isEmpty then c.transformRequires else c.fitRequires

end Contract

namespace Graph

/-- A slot of a declaration that holds a schema. -/
def schemaSlot (g : Graph) (declaration : Value) (name : String) (slot : Slot) :
    Except Fault Schema := do
  match ← g.part declaration slot.name with
  | .absent | .null => .ok []
  | v => g.schemaOf v (name ++ "." ++ slot.name)

/-- The slot of a declaration that holds productions. -/
def producedSlot (g : Graph) (declaration : Value) (name : String) : Except Fault Produced := do
  match ← g.part declaration Slot.producedOrModified.name with
  | .absent | .null => .ok []
  | v => g.producedOf v (name ++ "." ++ Slot.producedOrModified.name)

/-- The contract that a declaration spells. The slots have paths that start with `name`; defects of
    the declaration as a whole stand at `place`. -/
def contractAt (g : Graph) (declaration : Value) (name : String) (place : Option String) :
    Except Fault Contract :=
  match declaration with
  | .absent => .ok {}
  | v =>
    if !v.isObject then .error (.malformed place .declarationNotATable)
    else do
      let entries ← g.partsOf v
      match entries.names.find? fun key => (Slot.ofName? key).isNone with
      | some key => .error (.malformed place (.unknownSlot key))
      | none => do
        let fitRequires ← g.schemaSlot v name .fitRequires
        let transformRequires ← g.schemaSlot v name .transformRequires
        let fitParameters ← g.schemaSlot v name .fitParameters
        let fittedState ← g.schemaSlot v name .fittedState
        let produced ← g.producedSlot v name
        .ok ⟨fitRequires, transformRequires, fitParameters, fittedState, produced⟩

/-- The contract that a declaration under a name spells. -/
def contractOf (g : Graph) (declaration : Value) (name : String) : Except Fault Contract :=
  g.contractAt declaration name (some name)

/-- The contract that a declaration spells under a name that is given as a value. Without a name it
    is just a contract. A name that does not count as given is no place. -/
def contractNamed (g : Graph) (declaration name : Value) : Except Fault Contract :=
  match name with
  | .absent => g.contractOf declaration "contract"
  | .text s => g.contractOf declaration s
  | name => do
    let shown ← g.textPart name
    g.contractAt declaration shown (if name.isGiven then some shown else none)

end Graph

end SchemaFlow
