import SchemaFlow.Production.Basic
import SchemaFlow.Value.Typed

/-!
# Productions built from values

A production is given as a type or as an object with an `op`. `Graph.producedOf` reads a table of
them, at any depth of `modify`, and refuses what is neither; the path says where in a declaration
the table stands. `Graph.setOf` and `Graph.modifyOf` make such objects, sealed; `Value.drop` is one.
-/

namespace SchemaFlow

/-- An operation as it is given: the fields of a modification are not read yet. -/
inductive GivenOperation
  | set (t : TypeSpec)
  | drop
  | modify (fields : Value)

namespace Graph

/-- The part of an object; absent where there is nothing to read. -/
def partOrAbsent (g : Graph) (v : Value) (name : String) : Value :=
  match g.part v name with
  | .ok w => w
  | .error _ => .absent

/-- The operation that an object spells. -/
def givenOperation? (g : Graph) (v : Value) : Option GivenOperation :=
  if !v.isObject then none
  else
    match g.partOrAbsent v "op" with
    | .text "set" => (g.partOrAbsent v "type").type?.map .set
    | .text "drop" => some .drop
    | .text "modify" =>
      let fields := g.partOrAbsent v "fields"
      if fields.isObject then some (.modify fields) else none
    | _ => none

/-- Whether a value is an operation. -/
def isOperation (g : Graph) (v : Value) : Bool := (g.givenOperation? v).isSome

/-- Reads one production; `sub` reads the fields of a modification at a path. -/
def productionFrom (g : Graph) (sub : Value → String → Except Fault Produced) (v : Value)
    (path : String) : Except Fault Production :=
  match v.type? with
  | some t => .ok (.type t)
  | none =>
    match g.givenOperation? v with
    | some (.set t) => .ok (.set t)
    | some .drop => .ok .drop
    | some (.modify fields) => do
      let ps ← sub fields path
      .ok (.modify ps)
    | none => refuse path .notAProduction

/-- The names that a production keeps for itself once it is an ancestor. A type and a modification
    are sealed; another operation keeps what the value keeps that it was given as. -/
def keptBy (g : Graph) (v : Value) : Production → List String
  | .set _ | .drop => if g.isSealed v then (g.listed v).names else []
  | p => p.partNames

/-- Stores the entries of a table of productions. -/
def fillProduced (g : Graph) (sub : Value → String → Except Fault Produced) (path : String) :
    Filling Production → Entries Value → Except Fault (Filling Production)
  | f, [] => .ok f
  | f, (key, v) :: rest =>
    if key = "" then refuse path .emptyKey
    else do
      let p ← g.productionFrom sub v (path ++ "." ++ key)
      match f.store (g.keptBy v p) key p with
      | some f => fillProduced g sub path f rest
      | none => .error (.sealed key)

/-- Reads a table of productions inside the containers of `visiting`. -/
def producedAt (g : Graph) (visiting : List Nat) (v : Value) (path : String) :
    Except Fault Produced :=
  if !g.isTable v then refuse path .notAProducedSchema
  else
    match v with
    | .node id =>
      if _hnew : id ∈ visiting then .error .endless
      else
        match _hnode : g.node? id with
        | none => .ok []
        | some n => do
          let entries :=
            match n with
            | .object _ entries => entries
            | _ => []
          let f ← g.fillProduced (fun w at' => g.producedAt (id :: visiting) w at') path {} entries
          .ok f.entries
    | v => do
      let entries ← g.partsOf v
      let f ← g.fillProduced (fun _ at' => refuse at' .notAProducedSchema) path {} entries
      .ok f.entries
termination_by g.unvisited visiting
decreasing_by exact unvisited_cons_lt (lt_size_of_node? _hnode) _hnew

/-- Reads a table of productions. -/
def producedOf (g : Graph) (v : Value) (path : String) : Except Fault Produced :=
  g.producedAt [] v path

/-! ## Constructors -/

/-- The operation that sets a type. -/
def setOf (g : Graph) (v : Value) : Except Fault (Graph × Value) :=
  match v.type? with
  | some _ => .ok (g.add (.object (.sealed none) [("op", .text "set"), ("type", v)]))
  | none => refuseHere .setWithoutType

/-- Seals the entries of a table; what stands under the ancestor's name comes last. -/
def sealEntries (copy : Value → Graph → Graph × Value) :
    Entries Value → Graph → Graph × Entries Value × Option Value
  | [], h => (h, [], none)
  | (name, v) :: rest, h =>
    let (h, w) := copy v h
    let (h, ws, ancestor) := sealEntries copy rest h
    if name = ancestorName then (h, ws, some w) else (h, (name, w) :: ws, ancestor)

/-- Adds a sealed copy of a table of productions to the graph `h`, which has grown out of `g`. The
    tables of modifications inside are copied too; types and other operations stay as they are. -/
def addSealedAt (g : Graph) (visiting : List Nat) (v : Value) (h : Graph) : Graph × Value :=
  match v with
  | .node id =>
    if _hnew : id ∈ visiting then (h, v)
    else if _hsize : id < g.size then
      let copy : Value → Graph → Graph × Value := fun w h =>
        match g.givenOperation? w with
        | some (.modify fields) =>
          let (h, table) := g.addSealedAt (id :: visiting) fields h
          h.add (.object (.sealed none) [("op", .text "modify"), ("fields", table)])
        | _ => (h, w)
      let (h, entries, ancestor) := sealEntries copy (g.listed v) h
      h.add (.object (.sealed ancestor) entries)
    else (h, v)
  | v =>
    let (h, entries, ancestor) := sealEntries (fun w h => (h, w)) (g.listed v) h
    h.add (.object (.sealed ancestor) entries)
termination_by g.unvisited visiting
decreasing_by exact unvisited_cons_lt _hsize _hnew

/-- The operation that modifies fields. -/
def modifyOf (g : Graph) (fields : Value) : Except Fault (Graph × Value) := do
  let _ ← g.producedOf fields "modify"
  let (h, table) := g.addSealedAt [] fields g
  .ok (h.add (.object (.sealed none) [("op", .text "modify"), ("fields", table)]))

end Graph

end SchemaFlow
