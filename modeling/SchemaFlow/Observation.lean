import SchemaFlow.TypeSpec.Compatibility
import SchemaFlow.Value.Typed

/-!
# Observation

`Graph.observe g hint v` is the type that the value `v` exhibits. A type exhibits itself. The hint
steers how a container is read, never what a scalar is:

* a plain object is a record under a record, and a mapping of texts otherwise;
* a container of one element type exhibits the first element that the hinted element type rejects,
  else its first element; an empty one takes the hinted type, or an unknown one;
* an object with a text `dtype` and a list of numbers `shape` describes itself as an array.

A container met again inside itself exhibits a handle of its label. The keys of a map are observed
on their own, without what is already being visited, and a map inside one of its own keys cannot be
observed: that is the fault `endless`.
-/

namespace SchemaFlow

/-! ## 1. Element types -/

/-- The first misfit, else the first element, else the expected type: `first` is what the elements
    before these exhibited first. -/
def firstMisfit (obs : Value → Except Fault TypeSpec) (expected : TypeSpec)
    (first : Option TypeSpec) : List Value → Except Fault TypeSpec
  | [] => .ok (first.getD expected)
  | v :: rest => do
    let t ← obs v
    if (expected.diagnose t).isSome then .ok t
    else firstMisfit obs expected (first.or (some t)) rest

/-- The element type of a container, given what its elements are expected to be. -/
def elementType (obs : Value → Except Fault TypeSpec) :
    Option TypeSpec → List Value → Except Fault TypeSpec
  | some expected, vs => firstMisfit obs expected none vs
  | none, [] => .ok (.handle "unknown")
  | none, v :: _ => obs v

/-! ## 2. Hints -/

/-- What an observation is told to expect: nothing, a type, or a table of types with the ancestor
    that lends it its parts. -/
inductive Hint
  | none
  | type (t : TypeSpec)
  | table (fields : Schema) (ancestor : Option TypeSpec)
deriving Inhabited

namespace Hint

/-- A type as a hint, if there is one. -/
def ofType? : Option TypeSpec → Hint
  | some t => .type t
  | Option.none => .none

/-- The sort of type that a hint passes for. -/
def sort? : Hint → Option String
  | none => Option.none
  | type t => some t.sortName
  | table fields ancestor =>
    if fields.has "kind" then Option.none else ancestor.map TypeSpec.sortName

/-- The hint that the part of a type under a name gives. -/
def ofPart (name : String) : TypeSpec → Hint
  | .sequence e => if name = "element" then type e else none
  | .mapping _ v => if name = "value" then type v else none
  | .record fields ancestor => if name = "fields" then table fields ancestor else none
  | _ => none

/-- The hint that the part of a hint under a name gives. A table is asked before its ancestor,
    which it holds under a name of its own. -/
def part (name : String) : Hint → Hint
  | none => none
  | type t => ofPart name t
  | table fields ancestor =>
    match fields.find? name, ancestor with
    | some t, _ => type t
    | Option.none, some a => if name = ancestorName then type a else ofPart name a
    | Option.none, Option.none => none

/-- The type that a hint is. -/
def type? : Hint → Option TypeSpec
  | type t => some t
  | _ => Option.none

/-- The hint for the elements of a list. -/
def element (h : Hint) : Hint := if h.sort? = some "sequence" then h.part "element" else none

/-- The hint for the values of a mapping. -/
def value (h : Hint) : Hint := if h.sort? = some "mapping" then h.part "value" else none

/-- A field of a record is hinted by the type that the record declares for it. -/
theorem part_fields_record {fields : Schema} {ancestor : Option TypeSpec} {name : String}
    {t : TypeSpec} (h : fields.find? name = some t) :
    part name (part "fields" (type (.record fields ancestor))) = type t := by
  simp [part, ofPart, h]

end Hint

/-! ## 3. Containers

`obs hint v` observes an element `v` under a hint. -/

section Containers

variable (obs : Hint → Value → Except Fault TypeSpec)

/-- A list exhibits a sequence. -/
def listType (hint : Hint) (items : List Value) : Except Fault TypeSpec := do
  let e := hint.element
  .ok (.sequence (← elementType (obs e) e.type? items))

/-- Observes the present entries of a plain object as fields of a record. -/
def observeFields (fields : Hint) :
    Filling TypeSpec → Entries Value → Except Fault (Filling TypeSpec)
  | f, [] => .ok f
  | f, (name, v) :: rest =>
    if v.isAbsent then observeFields fields f rest
    else do
      let t ← obs (fields.part name) v
      match f.store t.partNames name t with
      | some f => observeFields fields f rest
      | none => .error (.sealed name)

/-- A plain object exhibits a record under a record, else a mapping of texts. -/
def tableType (hint : Hint) (entries : Entries Value) : Except Fault TypeSpec :=
  if hint.sort? = some "record" then do
    let f ← observeFields obs (hint.part "fields") {} entries
    if f.entries.has "" then refuse "record" .emptyKey else .ok (.record f.entries none)
  else do
    let e := hint.value
    .ok (.mapping .string (← elementType (obs e) e.type? entries.contents))

/-- The scalar kinds among the keys of a map, each once. -/
def keyKinds (keyObs : Value → Except Fault TypeSpec) :
    List ScalarKind → List Value → Except Fault (List ScalarKind)
  | kinds, [] => .ok kinds
  | kinds, k :: rest => do
    let t ← keyObs k
    match t with
    | .scalar kind =>
      keyKinds keyObs (if kinds.contains kind then kinds else kinds ++ [kind]) rest
    | _ => keyKinds keyObs kinds rest

/-- The key kind that a hint gives; a hint may hold a type where the kind should stand. -/
def hintedKey : Hint → Except Fault ScalarKind
  | .type (.mapping kind _) => .ok kind
  | .table fields ancestor =>
    match fields.find? "key", ancestor with
    | some t, _ => refuseHere (.unknownKind t.json.compact "mapping key")
    | none, some (.mapping kind _) => .ok kind
    | none, _ => .ok .string
  | _ => .ok .string

/-- The key kind of a map: the only kind among its keys, else the hinted one, else texts. -/
def keyKind (hint : Hint) : List ScalarKind → Except Fault ScalarKind
  | [kind] => .ok kind
  | _ => if hint.sort? = some "mapping" then hintedKey hint else .ok .string

/-- A map exhibits a mapping. -/
def mapType (keyObs : Value → Except Fault TypeSpec) (hint : Hint)
    (entries : List (Value × Value)) : Except Fault TypeSpec := do
  let kinds ← keyKinds keyObs [] (entries.map Prod.fst)
  let e := hint.value
  let t ← elementType (obs e) e.type? (entries.map Prod.snd)
  let kind ← keyKind hint kinds
  .ok (.mapping kind t)

end Containers

/-! ## 4. Objects that describe themselves -/

/-- The element kinds of self-described arrays, by their names in lower case. -/
def elementKinds : List (String × ScalarKind) :=
  [("float16", .float), ("float32", .float), ("float64", .float), ("int8", .integer),
    ("int16", .integer), ("int32", .integer), ("int64", .integer), ("uint8", .integer),
    ("uint16", .integer), ("uint32", .integer), ("bool", .boolean), ("string", .string)]

/-- The dimensions of a self-described array: a number above zero must be whole, any other leaves
    the dimension free. Holes are passed over. -/
def shapeDimensions (index : Nat) : List (Option Float) → Except Fault (List Dimension)
  | [] => .ok []
  | none :: rest => shapeDimensions (index + 1) rest
  | some x :: rest =>
    if 0 < x then
      match Decimal.positiveInteger? x with
      | some n => do
        let ds ← shapeDimensions (index + 1) rest
        .ok (.fixed n :: ds)
      | none => refuseHere (.notASize index (Decimal.numberText x))
    else do
      let ds ← shapeDimensions (index + 1) rest
      .ok (.free :: ds)

/-- The type of an array that describes itself. Names of inherited parts are no element kinds but
    are not unknown either: they are refused. -/
def describedType (label : String) (dtype : String) (shape : List (Option Float)) :
    Except Fault TypeSpec :=
  match (ScalarKind.ofName? dtype).or (Entries.find? elementKinds dtype.toLower) with
  | some kind => do
    let ds ← shapeDimensions 0 shape
    .ok (.array kind ds)
  | none =>
    if dtype.toLower = "constructor" then
      refuseHere (.unknownKind "undefined" "array element")
    else if dtype.toLower = ancestorName then
      refuseHere (.unknownKind "\x7b\x7d" "array element")
    else Graph.handle label

/-- The numbers of a list with their places, if it holds nothing else. -/
def allNumbers : List Value → Option (List (Option Float))
  | [] => some []
  | .hole :: rest => (allNumbers rest).map (none :: ·)
  | .number x :: rest => (allNumbers rest).map (some x :: ·)
  | _ :: _ => none

/-- The self-description of an object, given the parts that it is read by. -/
def Graph.description? (g : Graph) (entries : Entries Value) :
    Option (String × List (Option Float)) :=
  match entries.find? "dtype", entries.find? "shape" with
  | some (.text dtype), some shape =>
    ((g.items? shape).bind allNumbers).map fun numbers => (dtype, numbers)
  | _, _ => none

/-- The type of a value that holds no others. -/
def leafType : Value → Except Fault TypeSpec
  | .type t => .ok t
  | .text _ => .ok (.scalar .string)
  | .number _ => .ok (.scalar .float)
  | .whole _ => .ok (.scalar .integer)
  | .bool _ => .ok (.scalar .boolean)
  | .instant _ => .ok (.scalar .datetime)
  | .null => .ok (.handle "null")
  | .absent | .hole => .ok (.handle "undefined")
  | .function => .ok (.handle "function")
  | .symbol => .ok (.handle "symbol")
  | .buffer className n =>
    let kind :=
      if className = "Float32Array" || className = "Float64Array" then ScalarKind.float
      else .integer
    .ok (.array kind [if n = 0 then .free else .fixed n])
  | .foreign className => Graph.handle className
  | .founder .function => .ok (.handle "function")
  | .founder .list => .ok (.sequence (.handle "unknown"))
  | .founder (.buffer className) => Graph.handle className
  | .drop | .founder _ => .ok (.mapping .string (.handle "unknown"))
  | .fieldTable _ _ | .sizeList _ | .node _ => .ok (.handle "object")

namespace Graph

/-! ## 5. Observation -/

/-- The entries that an object is described by: its own, then those of its ancestor. -/
def describing (g : Graph) (lineage : Lineage) (entries : Entries Value) : Entries Value :=
  match lineage with
  | .sealed (some ancestor) => entries ++ g.listed ancestor
  | _ => entries

/-- Observes a value inside the containers of `visiting`, and inside keys of the maps of
    `keyed`. -/
def observeAt (g : Graph) (keyed visiting : List Nat) (hint : Hint) (v : Value) :
    Except Fault TypeSpec :=
  match v with
  | .fieldTable fs ancestor =>
    match ancestor with
    | some _ => handle (g.label (.fieldTable fs ancestor))
    | none => tableType (fun _ w => leafType w) hint (fs.map fun (k, t) => (k, .type t))
  | .drop => tableType (fun _ w => leafType w) hint (g.listed .drop)
  | .sizeList ds => listType (fun _ w => leafType w) hint (ds.map Dimension.value)
  | .founder .list => listType (fun _ w => leafType w) hint []
  | .founder f => do
    let entries ← g.partsOf (.founder f)
    if g.isPlain (.founder f) then tableType (fun _ w => leafType w) hint entries
    else leafType (.founder f)
  | .node id =>
    if _hnew : id ∈ visiting then handle (g.label (.node id))
    else
      match _hnode : g.node? id with
      | none => tableType (fun _ w => leafType w) hint []
      | some (.list items) =>
        listType (fun hint w => g.observeAt keyed (id :: visiting) hint w) hint items
      | some (.map entries) =>
        if _hkey : id ∈ keyed then .error .endless
        else
          mapType (fun hint w => g.observeAt keyed (id :: visiting) hint w)
            (fun w => g.observeAt (id :: keyed) [] .none w) hint entries
      | some (.object lineage entries) =>
        match g.description? (g.describing lineage entries) with
        | some (dtype, shape) => describedType (g.label (.node id)) dtype shape
        | none =>
          match lineage with
          | .ofClass _ | .sealed (some _) => handle (g.label (.node id))
          | .plain | .bare | .sealed none =>
            tableType (fun hint w => g.observeAt keyed (id :: visiting) hint w) hint entries
  | v => leafType v
termination_by (g.unvisited keyed, g.unvisited visiting)
decreasing_by
  all_goals first
    | exact Prod.Lex.right _ (unvisited_cons_lt (lt_size_of_node? _hnode) _hnew)
    | exact Prod.Lex.left _ _ (unvisited_cons_lt (lt_size_of_node? _hnode) _hkey)

/-- **The type that a value exhibits** under a hint. -/
def observe (g : Graph) (hint : Option TypeSpec) (v : Value) : Except Fault TypeSpec :=
  g.observeAt [] [] (.ofType? hint) v

/-- A type exhibits itself. -/
@[simp] theorem observe_type (g : Graph) (hint : Option TypeSpec) (t : TypeSpec) :
    g.observe hint (.type t) = .ok t := by
  simp [observe, observeAt, leafType]

end Graph

end SchemaFlow
