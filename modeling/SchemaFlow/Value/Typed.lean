import SchemaFlow.Value.Text

/-!
# Types built from values

The checked constructors of types. Each takes values, and refuses with a defect what is no scalar
kind, no type, no list of sizes or no label. `Graph.schemaOf` reads a whole table of types; the
path it is given says where in a declaration the table stands.
-/

namespace SchemaFlow

namespace Graph

/-- The scalar kind that a value names. -/
def kindOf (g : Graph) (v : Value) (what : String) : Except Fault ScalarKind :=
  let named : Option ScalarKind :=
    match v with
    | .text s => ScalarKind.ofName? s
    | _ => none
  match named with
  | some k => .ok k
  | none => do
    let shown ← g.jsonText v
    refuseHere (.unknownKind shown what)

/-- The type that a value is. -/
def typeOf (v : Value) (what : String) : Except Fault TypeSpec :=
  match v.type? with
  | some t => .ok t
  | none => refuseHere (.notAType what)

/-- A scalar type. -/
def scalarOf (g : Graph) (kind : Value) : Except Fault TypeSpec := do
  .ok (.scalar (← g.kindOf kind "scalar"))

/-- A sequence type. -/
def sequenceOf (element : Value) : Except Fault TypeSpec := do
  .ok (.sequence (← typeOf element "sequence element"))

/-- A dimension: `null` is free, and a number must be a positive integer. -/
def dimensionOf? : Value → Option Dimension
  | .null => some .free
  | .number x => (Decimal.positiveInteger? x).map .fixed
  | _ => none

/-- Dimensions, from the one at `index` on; holes are passed over. -/
def dimensionsOf (g : Graph) (index : Nat) : List Value → Except Fault (List Dimension)
  | [] => .ok []
  | .hole :: rest => dimensionsOf g (index + 1) rest
  | v :: rest =>
    match dimensionOf? v with
    | some d => do
      let ds ← dimensionsOf g (index + 1) rest
      .ok (d :: ds)
    | none => do
      let shown ← g.plainText v
      refuseHere (.notASize index shown)

/-- The items of a list, at each of its places. -/
def items? (g : Graph) : Value → Option (List Value)
  | .sizeList ds => some (ds.map Dimension.value)
  | .founder .list => some []
  | .node id =>
    match g.node id with
    | .list items => some items
    | _ => none
  | _ => none

/-- An array type. -/
def arrayOf (g : Graph) (element dims : Value) : Except Fault TypeSpec := do
  let kind ← g.kindOf element "array element"
  match g.items? dims with
  | none => refuseHere .dimensionsNotAList
  | some items => do
    let ds ← g.dimensionsOf 0 items
    .ok (.array kind ds)

/-- A mapping type. -/
def mappingOf (g : Graph) (key value : Value) : Except Fault TypeSpec := do
  let k ← g.kindOf key "mapping key"
  let v ← typeOf value "mapping value"
  .ok (.mapping k v)

/-- A handle type for a label that is not blank. -/
def handle (label : String) : Except Fault TypeSpec :=
  if Text.isBlankText label then refuseHere .blankLabel else .ok (.handle label)

/-- A handle type. -/
def handleOf : Value → Except Fault TypeSpec
  | .text label => handle label
  | _ => refuseHere .blankLabel

/-- Whether a value can be read as a table of a declaration: a container that is no list. -/
def isTable (g : Graph) (v : Value) : Bool := v.isObject && !g.isList v

/-- Stores the entries of a schema. -/
def fillSchema (path : String) :
    Filling TypeSpec → Entries Value → Except Fault (Filling TypeSpec)
  | f, [] => .ok f
  | f, (key, v) :: rest =>
    if key = "" then refuse path .emptyKey
    else do
      let t ← typeOf v (path ++ "." ++ key)
      match f.store t.partNames key t with
      | some f => fillSchema path f rest
      | none => .error (.sealed key)

/-- Reads a table of types. -/
def filledSchemaOf (g : Graph) (v : Value) (path : String) : Except Fault (Filling TypeSpec) := do
  if g.isTable v then
    let entries ← g.partsOf v
    fillSchema path {} entries
  else refuse path .notASchema

/-- Reads a schema. -/
def schemaOf (g : Graph) (v : Value) (path : String) : Except Fault Schema := do
  .ok (← g.filledSchemaOf v path).entries

/-- A record type. -/
def recordOf (g : Graph) (fields : Value) : Except Fault TypeSpec := do
  .ok (.ofFilling (← g.filledSchemaOf fields "record"))

end Graph

end SchemaFlow
