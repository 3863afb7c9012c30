import SchemaFlow.Chain.Pass
import SchemaFlow.Json.Reader

/-!
# Declarations

A declaration spells a chain in plain data: stages with their slots, types in their notation, and
the types of the chain's input. What is produced is a type, the word `drop`, or the fields that are
modified. `Graph.chainOf` compiles a declaration that is given as a value, and `Compiled.ofText` one
that is given as a JSON text. Every defect is reported with the path at which it stands.
-/

namespace SchemaFlow

/-- A compiled declaration: the chain, and the types of its input. -/
structure Compiled where
  chain : Chain
  input : Schema
deriving Inhabited

namespace Graph

/-! ## 1. Types and productions -/

/-- The type that a text at a path spells. -/
def typeTextOf (v : Value) (path : String) : Except Fault TypeSpec :=
  match v with
  | .text s =>
    match TypeSpec.parse s with
    | .ok t => .ok t
    | .error (.malformed _ defect) => refuse path defect
    | .error e => .error e
  | _ => refuse path .notATypeText

/-- Stores the types that the entries of a table spell. -/
def fillTypeTexts (path : String) :
    Filling TypeSpec → Entries Value → Except Fault (Filling TypeSpec)
  | f, [] => .ok f
  | f, (key, v) :: rest => do
    let t ← typeTextOf v (path ++ "." ++ key)
    match f.store t.partNames key t with
    | some f => fillTypeTexts path f rest
    | none => .error (.sealed key)

/-- The schema that a table of texts spells; nothing spells an empty one. -/
def schemaTextOf (g : Graph) (v : Value) (path : String) : Except Fault Schema :=
  match v with
  | .absent => .ok []
  | v =>
    if g.isPlain v then do
      let entries ← g.partsOf v
      let f ← fillTypeTexts path {} entries
      .ok f.entries
    else refuse path .notASchema

/-- Whether the name of no field is empty. -/
def namedFields (ps : Produced) : Except Fault Produced :=
  if ps.has "" then refuse "modify" .emptyKey else .ok ps

/-- The production that a value spells; `sub` compiles the fields of a modification. -/
def productionTextOf (g : Graph) (sub : Value → String → Except Fault Produced) (v : Value)
    (path : String) : Except Fault Production :=
  match v with
  | .text "drop" => .ok .drop
  | v =>
    if g.isPlain v then do
      let entries ← g.partsOf v
      if entries.has "modify" && entries.length = 1 then
        let ps ← sub ((entries.find? "modify").getD .absent) (path ++ ".modify")
        let ps ← namedFields ps
        .ok (.modify ps)
      else refuse path .notAProductionText
    else do
      let t ← typeTextOf v path
      .ok (.type t)

/-- Stores the productions that the entries of a table spell. -/
def fillProducedTexts (g : Graph) (sub : Value → String → Except Fault Produced) (path : String) :
    Filling Production → Entries Value → Except Fault (Filling Production)
  | f, [] => .ok f
  | f, (key, v) :: rest => do
    let p ← g.productionTextOf sub v (path ++ "." ++ key)
    match f.store p.partNames key p with
    | some f => fillProducedTexts g sub path f rest
    | none => .error (.sealed key)

/-- The productions that a table spells, inside the tables of `visiting`. -/
def producedTextAt (g : Graph) (visiting : List Nat) (v : Value) (path : String) :
    Except Fault Produced :=
  match v with
  | .absent => .ok []
  | .node id =>
    if !g.isPlain (.node id) then refuse path .notAProducedSchema
    else if _hnew : id ∈ visiting then .error .endless
    else if _hsize : id < g.size then do
      let entries ← g.partsOf (.node id)
      let f ← g.fillProducedTexts (fun w at' => g.producedTextAt (id :: visiting) w at') path {}
        entries
      .ok f.entries
    else .ok []
  | v =>
    if g.isPlain v then do
      let entries ← g.partsOf v
      let f ← g.fillProducedTexts (fun _ at' => refuse at' .notAProducedSchema) path {} entries
      .ok f.entries
    else refuse path .notAProducedSchema
termination_by g.unvisited visiting
decreasing_by exact unvisited_cons_lt _hsize _hnew

/-- The productions that a table spells; nothing spells none. -/
def producedTextOf (g : Graph) (v : Value) (path : String) : Except Fault Produced :=
  g.producedTextAt [] v path

/-! ## 2. Stages -/

/-- Compiles the slots of a stage, in the order in which they stand. -/
def stageSlots (g : Graph) (path : String) : Contract → Entries Value → Except Fault Contract
  | c, [] => .ok c
  | c, (key, v) :: rest => do
    let at' := path ++ "." ++ key
    match Slot.ofName? key with
    | some .fitRequires => do
      let s ← g.schemaTextOf v at'
      stageSlots g path { c with fitRequires := s } rest
    | some .transformRequires => do
      let s ← g.schemaTextOf v at'
      stageSlots g path { c with transformRequires := s } rest
    | some .fitParameters => do
      let s ← g.schemaTextOf v at'
      stageSlots g path { c with fitParameters := s } rest
    | some .fittedState => do
      let s ← g.schemaTextOf v at'
      stageSlots g path { c with fittedState := s } rest
    | some .producedOrModified => do
      let ps ← g.producedTextOf v at'
      stageSlots g path { c with produced := ps } rest
    | none => refuse path (.unknownStageField key)

/-- Refuses an empty name in a slot. -/
def checkKeys {α : Type} (name : String) (slot : Slot) (entries : Entries α) : Except Fault Unit :=
  if entries.has "" then refuse (name ++ "." ++ slot.name) .emptyKey else .ok ()

/-- Refuses an empty name in any slot. -/
def checkContract (name : String) (c : Contract) : Except Fault Contract := do
  checkKeys name .fitRequires c.fitRequires
  checkKeys name .transformRequires c.transformRequires
  checkKeys name .fitParameters c.fitParameters
  checkKeys name .fittedState c.fittedState
  checkKeys name .producedOrModified c.produced
  .ok c

/-- Compiles the stage at a path: its name, and its contract. -/
def stageOf (g : Graph) (v : Value) (path : String) : Except Fault (Value × Link) :=
  if !g.isPlain v then refuse path .stageNotATable
  else do
    match ← g.part v "name" with
    | .text name => do
      let entries ← g.partsOf v
      let slots := entries.erase "name"
      let c ← g.stageSlots (path ++ "(" ++ name ++ ")") {} slots
      let c ← checkContract name c
      .ok (.text name, .stage c)
    | _ => refuse path .stageUnnamed

/-- Compiles stages, from the one at `index` on. A hole is passed over, and stays. -/
def stagesOf (g : Graph) (index : Nat) : List Value → Except Fault (List (Option (Value × Link)))
  | [] => .ok []
  | .hole :: rest => do
    let ls ← stagesOf g (index + 1) rest
    .ok (none :: ls)
  | v :: rest => do
    let l ← g.stageOf v s!"stages[{index}]"
    let ls ← stagesOf g (index + 1) rest
    .ok (some l :: ls)

/-! ## 3. Chains -/

/-- The table that holds the stages: the declaration itself, or what stands in it under `chain`. -/
def unwrapped (g : Graph) (v : Value) : Except Fault Value :=
  if !g.isPlain v then refuseHere .chainNotATable
  else do
    let stages ← g.part v "stages"
    if g.isList stages then .ok v
    else
      let inner ← g.part v "chain"
      if g.isPlain inner then .ok inner else refuseHere .noChain

/-- **Compiles a declaration.** -/
def chainOf (g : Graph) (v : Value) : Except Fault Compiled := do
  let v ← g.unwrapped v
  let stages ← g.part v "stages"
  match g.items? stages with
  | none => refuse "chain" .stagesNotAList
  | some items => do
    let links ← g.stagesOf 0 items
    let chain ← Chain.ofPlaces links
    let input ← g.part v "input"
    let input ← g.schemaTextOf input "input"
    .ok ⟨chain, input⟩

mutual

/-- Adds a JSON value to the graph. -/
def addJson (g : Graph) : Json → Graph × Value
  | .null => (g, .null)
  | .bool b => (g, .bool b)
  | .number x => (g, .number x)
  | .text s => (g, .text s)
  | .list items =>
    let (g, vs) := addJsonItems g items
    g.add (.list vs)
  | .object entries =>
    let (g, es) := addJsonEntries g entries
    g.add (.object .plain es)

/-- Adds JSON values, one after the other. -/
def addJsonItems (g : Graph) : List Json → Graph × List Value
  | [] => (g, [])
  | j :: rest =>
    let (g, v) := addJson g j
    let (g, vs) := addJsonItems g rest
    (g, v :: vs)

/-- Adds the contents of entries, one after the other. -/
def addJsonEntries (g : Graph) : List (String × Json) → Graph × Entries Value
  | [] => (g, [])
  | (k, j) :: rest =>
    let (g, v) := addJson g j
    let (g, es) := addJsonEntries g rest
    (g, (k, v) :: es)

end

end Graph

/-- **Compiles a declaration from its JSON text.** -/
def Compiled.ofText (s : String) : Except Fault Compiled :=
  match Json.parse? s with
  | none => refuseHere .invalidJson
  | some j =>
    let (g, v) := ({} : Graph).addJson j
    g.chainOf v

/-- The declared input as data: each name holds its type. -/
def Schema.asData (s : Schema) : Entries Value := s.map fun (name, t) => (name, .type t)

/-- Checks the chain against its declared input. -/
def Compiled.check (c : Compiled) (phase : Phase) : Except Fault (List Violation) :=
  c.chain.checkStatic {} (Schema.asData c.input) phase

/-- Checks several phases, one after the other. -/
def Compiled.checkPhases (c : Compiled) : List Phase → Except Fault (List Violation)
  | [] => .ok []
  | phase :: rest => do
    let found ← c.check phase
    let later ← c.checkPhases rest
    .ok (found ++ later)

end SchemaFlow
