import SchemaFlow.Contract.Basic

/-!
# Chains

A chain is a row of named links, each a stage's contract or a chain of its own. Seen from outside a
chain is a stage again, with a contract derived from its links:

* `requirement`: a link's demand is the chain's unless an earlier link produces the name or demands
  it already;
* `netEffect`: the productions of all links, composed name by name;
* parameters and state are records of those of the links, under the links' names.

`Chain.ofLinks` builds a chain. It refuses a name that is empty, holds the separator or stands
twice, and an empty row.
-/

namespace SchemaFlow

/-- A link of a chain: a stage, or a chain inside the chain. -/
inductive Link
  | stage (contract : Contract)
  | chain (links : List (String × Link))
deriving Inhabited

/-- What separates the names of nested links. -/
def separator : Char := '/'

/-! ## 1. Derived contracts -/

/-- Adds the demand of one link, unless it is met or made already. -/
def addDemand (made : Entries TypeSpec) : Schema → Schema → Schema
  | [], required => required
  | (key, t) :: rest, required =>
    addDemand made rest <|
      if made.has key || required.has key then required else required.insert key t

/-- What a row of contracts demands from outside: `made` is what its predecessors produce, and
    `required` what they demand. -/
def requirementFrom (demand : Contract → Schema) :
    List Contract → Entries TypeSpec → Schema → Schema
  | [], _, required => required
  | c :: rest, made, required =>
    requirementFrom demand rest (applyAll c.produced made) (addDemand made (demand c) required)

/-- What a row of contracts demands from outside, each name typed at its first use. -/
def requirement (demand : Contract → Schema) (cs : List Contract) : Schema :=
  requirementFrom demand cs [] []

/-- Composes the productions of one stage onto those before. -/
def addEffect : Produced → Produced → Produced
  | [], net => net
  | (key, p) :: rest, net => addEffect rest (net.insert key (Production.compose (net.find? key) p))

/-- The net effect of a row of contracts, one production a name. -/
def netEffect (cs : List Contract) : Produced := cs.foldl (fun net c => addEffect c.produced net) []

/-- Stores the record of a link's schema under the link's name, which may not be sealed; an empty
    schema has no record. -/
def storeRecord (pick : Contract → Schema) (name : String) (c : Contract) (f : Filling TypeSpec) :
    Except Fault (Filling TypeSpec) :=
  if (pick c).isEmpty then .ok f
  else
    let t := TypeSpec.record (pick c) none
    match f.store t.partNames name t with
    | some f => .ok f
    | none => .error (.sealed name)

/-- The records of the links' schemas, under the links' names. -/
def recordsOf (pick : Contract → Schema) :
    List (String × Contract) → Filling TypeSpec → Except Fault (Filling TypeSpec)
  | [], f => .ok f
  | (name, c) :: rest, f => do
    let f ← storeRecord pick name c f
    recordsOf pick rest f

/-- The entries of those records. -/
def recordEntries (pick : Contract → Schema) (cs : List (String × Contract)) : Schema :=
  match recordsOf pick cs {} with
  | .ok f => f.entries
  | .error _ => []

/-- The contract of a row of named contracts, seen as one stage. -/
def derivedContract (cs : List (String × Contract)) : Contract :=
  let contracts := cs.map Prod.snd
  { fitRequires := requirement Contract.fitDemand contracts
    transformRequires := requirement Contract.transformRequires contracts
    fitParameters := recordEntries Contract.fitParameters cs
    fittedState := recordEntries Contract.fittedState cs
    produced := netEffect contracts }

mutual

/-- The contract of a link. -/
def Link.contract : Link → Contract
  | .stage c => c
  | .chain links => derivedContract (namedContracts links)

/-- The contracts of links, under their names. -/
def namedContracts : List (String × Link) → List (String × Contract)
  | [] => []
  | (name, l) :: rest => (name, Link.contract l) :: namedContracts rest

end

/-! ## 2. Chains -/

/-- A chain. -/
structure Chain where
  links : List (String × Link)
deriving Inhabited

namespace Chain

/-- The names of the links. -/
def names (c : Chain) : List String := c.links.map Prod.fst

/-- The contracts of the links. -/
def contracts (c : Chain) : List Contract := (namedContracts c.links).map Prod.snd

/-- What the transform pass needs from outside. -/
def requiredInput (c : Chain) : Schema := requirement Contract.transformRequires c.contracts

/-- What the fit pass needs from outside. -/
def requiredFitInput (c : Chain) : Schema := requirement Contract.fitDemand c.contracts

/-- What the chain does to the data. -/
def producedOutput (c : Chain) : Produced := netEffect c.contracts

/-- The chain seen as a single stage. -/
def contract (c : Chain) : Contract := derivedContract (namedContracts c.links)

/-- The chain as a link of another. -/
def asLink (c : Chain) : Link := .chain c.links

/-! ## 3. Building -/

/-- Checks the name of one link against those before it. -/
def checkName (path : String) (seen : List String) : Value → Except Fault String
  | .text name =>
    if name = "" then refuse path .stageNameMissing
    else if name.toList.contains separator then refuse path (.stageNameSeparated name)
    else if seen.contains name then refuse path (.stageNameTaken name)
    else .ok name
  | _ => refuse path .stageNameMissing

/-- Checks the names of links, from the one at `index` on. -/
def checkNames (index : Nat) (seen : List String) :
    List (Value × Link) → Except Fault (List (String × Link))
  | [] => .ok []
  | (name, l) :: rest => do
    let name ← checkName s!"links[{index}]" seen name
    let links ← checkNames (index + 1) (name :: seen) rest
    .ok ((name, l) :: links)

/-- Fills the records of the links' parameters and those of their state, both link by link. -/
def fillRecords : List (String × Contract) → Filling TypeSpec → Filling TypeSpec →
    Except Fault (Filling TypeSpec × Filling TypeSpec)
  | [], parameters, state => .ok (parameters, state)
  | (name, c) :: rest, parameters, state => do
    let parameters ← storeRecord Contract.fitParameters name c parameters
    let state ← storeRecord Contract.fittedState name c state
    fillRecords rest parameters state

/-- Checks that the links' names can name the records of the derived contract. -/
def checkRecords (cs : List (String × Contract)) : Except Fault Unit := do
  let _ ← fillRecords cs {} {}
  .ok ()

/-- **Builds a chain** of links whose names are still to be checked. -/
def ofLinks (links : List (Value × Link)) : Except Fault Chain := do
  let links ← checkNames 0 [] links
  if links.isEmpty then refuseHere .noStages
  else do
    checkRecords (namedContracts links)
    .ok ⟨links⟩

/-- The links that stand before the first hole, and whether there is one. -/
def beforeHole : List (Option (Value × Link)) → List (Value × Link) × Bool
  | [] => ([], false)
  | none :: _ => ([], true)
  | some l :: rest =>
    let (ls, holed) := beforeHole rest
    (l :: ls, holed)

/-- Builds a chain of links at places, some of which may be holes: a hole has no name to be read, and
    is met once the names before it have passed. -/
def ofPlaces (places : List (Option (Value × Link))) : Except Fault Chain :=
  match beforeHole places with
  | (links, false) => ofLinks links
  | (links, true) => do
    let _ ← checkNames 0 [] links
    .error .illTyped

end Chain

end SchemaFlow
