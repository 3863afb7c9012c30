import SchemaFlow.Json
import SchemaFlow.Value.Instant
import SchemaFlow.Value.Parts

/-!
# Values as text

Two texts show a value in a message: its JSON (`Graph.json?`), and its plain text
(`Graph.plainText`). Both walk through containers; JSON has no form for a container inside itself,
while the plain text of a list leaves such an item empty. The keys of a map become names by their
plain texts.
-/

namespace SchemaFlow

/-! ## 1. JSON -/

/-- The JSON of a dimension. -/
def dimensionJson : Dimension → Json
  | .free => .null
  | .fixed n => .number (Decimal.toFloat n 0)

mutual

/-- The JSON of a type, by its parts. -/
def TypeSpec.json : TypeSpec → Json
  | .scalar k => .object [("kind", .text "scalar"), ("scalar", .text k.name)]
  | .sequence e => .object [("kind", .text "sequence"), ("element", TypeSpec.json e)]
  | .array k ds =>
    .object [("kind", .text "shapedArray"), ("element", .text k.name),
      ("dimensions", .list (ds.map dimensionJson))]
  | .mapping k v =>
    .object [("kind", .text "mapping"), ("key", .text k.name), ("value", TypeSpec.json v)]
  | .handle label => .object [("kind", .text "opaque"), ("label", .text label)]
  | .record fs _ => .object [("kind", .text "record"), ("fields", .object (TypeSpec.jsonFields fs))]

/-- The JSON of fields. -/
def TypeSpec.jsonFields : List (String × TypeSpec) → List (String × Json)
  | [] => []
  | (k, t) :: rest => (k, TypeSpec.json t) :: TypeSpec.jsonFields rest

end

namespace Graph

/-- Keeps what has a JSON form. -/
def jsonEntries (write : Value → Except Fault (Option Json)) :
    Entries Value → Except Fault (List (String × Json))
  | [] => .ok []
  | (k, v) :: rest => do
    let j ← write v
    let tail ← jsonEntries write rest
    match j with
    | some j => .ok ((k, j) :: tail)
    | none => .ok tail

/-- Writes items; what has no JSON form becomes `null`. -/
def jsonItems (write : Value → Except Fault (Option Json)) :
    List Value → Except Fault (List Json)
  | [] => .ok []
  | v :: rest => do
    let j ← write v
    let tail ← jsonItems write rest
    .ok (j.getD .null :: tail)

/-- The JSON of a value inside the containers of `visiting`; absent values and functions have none,
    and a whole number of unbounded size cannot be written. An object with a function of its own
    under `toJSON` is written as what that yields, a zero. -/
def jsonAt (g : Graph) (visiting : List Nat) (v : Value) : Except Fault (Option Json) :=
  match v with
  | .absent | .hole | .function | .symbol | .founder .function => .ok none
  | .null => .ok (some .null)
  | .bool b => .ok (some (.bool b))
  | .text s => .ok (some (.text s))
  | .number x => .ok (some (.number x))
  | .whole _ => .error .illTyped
  | .instant ms => .ok (some ((ms.map fun n => Json.text (Instant.sortableText n)).getD .null))
  | .type t => .ok (some t.json)
  | .fieldTable fs _ => .ok (some (.object (TypeSpec.jsonFields fs)))
  | .sizeList ds => .ok (some (.list (ds.map dimensionJson)))
  | .drop => .ok (some (.object [("op", .text "drop")]))
  | .buffer c n =>
    match bufferZero c with
    | .number x => .ok (some (.object (indexed (List.replicate n (Json.number x)))))
    | _ => if n = 0 then .ok (some (.object [])) else .error .illTyped
  | .foreign "Number" => .ok (some (.number 0))
  | .foreign "String" => .ok (some (.text ""))
  | .foreign _ => .ok (some (.object []))
  | .founder .list => .ok (some (.list []))
  | .founder _ => .ok (some (.object []))
  | .node id =>
    if _hnew : id ∈ visiting then .error .illTyped
    else
      match _hnode : g.node? id with
      | none => .ok (some (.object []))
      | some (.list items) => do
        let tail ← jsonItems (fun w => g.jsonAt (id :: visiting) w) items
        .ok (some (.list tail))
      | some (.object _ entries) =>
        match entries.find? "toJSON" with
        | some .function => .ok (some (.number 0))
        | _ => do
          let tail ← jsonEntries (fun w => g.jsonAt (id :: visiting) w) entries
          .ok (some (.object tail))
      | some (.map _) => .ok (some (.object []))
termination_by g.unvisited visiting
decreasing_by
  all_goals exact unvisited_cons_lt (lt_size_of_node? _hnode) _hnew

/-- The JSON of a value. -/
def json? (g : Graph) (v : Value) : Except Fault (Option Json) := g.jsonAt [] v

/-- The JSON text of a value on one line; `undefined` where there is none. -/
def jsonText (g : Graph) (v : Value) : Except Fault String := do
  let j ← g.json? v
  .ok ((j.map Json.compact).getD "undefined")

/-! ## 2. Plain text -/

/-- The texts of items in a row, those of holes, of absent items and of `null` empty. -/
def rowText (write : Value → Except Fault String) : List Value → Except Fault (List String)
  | [] => .ok []
  | v :: rest => do
    let s ←
      match v with
      | .absent | .hole | .null => .ok ""
      | v => write v
    let ss ← rowText write rest
    .ok (s :: ss)

/-- The text of an object whose inside is not modelled. -/
def foreignText (className : String) : String :=
  if className = "Number" then "0"
  else if className = "String" then ""
  else if className = "Error" then "Error"
  else if className = "RegExp" then "/(?:)/"
  else s!"[object {className}]"

/-- The text that a value adds to a longer one, inside the lists of `visiting`. A symbol adds none,
    and neither does an object that hides both its inherited texts. -/
def textPartAt (g : Graph) (visiting : List Nat) (v : Value) : Except Fault String :=
  match v with
  | .absent | .hole => .ok "undefined"
  | .null => .ok "null"
  | .bool b => .ok (if b then "true" else "false")
  | .text s => .ok s
  | .number x => .ok (Decimal.numberText x)
  | .whole n => .ok (toString n)
  | .instant ms => .ok ((ms.map Instant.longText).getD "Invalid Date")
  | .function => .ok "() => 0"
  | .symbol => .error .illTyped
  | .type _ | .fieldTable _ _ | .drop | .founder _ => .ok "[object Object]"
  | .sizeList ds => do
    let ss ← rowText (fun w => .ok (match w with | .number x => Decimal.numberText x | _ => ""))
      (ds.map Dimension.value)
    .ok (",".intercalate ss)
  | .buffer _ n => .ok (",".intercalate (List.replicate n "0"))
  | .foreign c => .ok (foreignText c)
  | .node id =>
    if _hnew : id ∈ visiting then .ok ""
    else
      match _hnode : g.node? id with
      | none => .ok "[object Object]"
      | some (.map _) => .ok "[object Map]"
      | some (.list items) => do
        let ss ← rowText (fun w => g.textPartAt (id :: visiting) w) items
        .ok (",".intercalate ss)
      | some (.object lineage entries) =>
        let isBare := match lineage with
          | .bare => true
          | _ => false
        match entries.find? "toString", entries.find? "valueOf" with
        | some .function, _ => .ok "0"
        | some _, some .function => .ok "0"
        | some _, _ => .error .illTyped
        | none, some .function => if isBare then .ok "0" else .ok "[object Object]"
        | none, _ => if isBare then .error .illTyped else .ok "[object Object]"
termination_by g.unvisited visiting
decreasing_by
  all_goals exact unvisited_cons_lt (lt_size_of_node? _hnode) _hnew

/-- The text that a value adds to a longer one. -/
def textPart (g : Graph) (v : Value) : Except Fault String := g.textPartAt [] v

/-- The plain text of a value, which a symbol has too. -/
def plainText (g : Graph) : Value → Except Fault String
  | .symbol => .ok "Symbol(s)"
  | v => g.textPart v

/-- The text that a value adds at the end of one: an object that says what it counts as adds that. -/
def addedText (g : Graph) (v : Value) : Except Fault String :=
  match v with
  | .node id =>
    match g.node id with
    | .object _ entries =>
      match entries.find? "valueOf" with
      | some .function => .ok "0"
      | _ => g.textPart v
    | _ => g.textPart v
  | v => g.textPart v

/-! ## 3. Keys of maps as names -/

/-- The name that a key of a map becomes; a symbol becomes none. -/
def nameOfKey? (g : Graph) : Value → Except Fault (Option String)
  | .symbol => .ok none
  | v => do
    let name ← g.textPart v
    .ok (some name)

/-- The entries of a map under the names that their keys become. -/
def namedEntries (g : Graph) : List (Value × Value) → Except Fault (Entries Value)
  | [] => .ok []
  | (k, v) :: rest => do
    let name ← g.nameOfKey? k
    let named ← namedEntries g rest
    match name with
    | some name => .ok ((name, v) :: named)
    | none => .ok named

/-- A value as a table of parameters: a map by its entries, anything else by its parts. -/
def parameterEntries (g : Graph) (v : Value) : Except Fault (List (Value × Value)) :=
  match g.mapEntries? v with
  | some entries => .ok entries
  | none => do
    let parts ← g.partsOf v
    .ok (parts.map fun (name, w) => (.text name, w))

end Graph

end SchemaFlow
