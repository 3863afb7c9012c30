import SchemaFlow.Decimal.Nearest
import SchemaFlow.Decimal.Text
import SchemaFlow.Fault
import SchemaFlow.Json.Reader
import SchemaFlow.Value.Basic
import SchemaFlow.Value.Family

/-!
# The parts of a value

Values are read in three ways. `Graph.partsOf` lists a value's own parts, in reading order: the
entries of an object, the items of a list, the units of a text, the parts of a type.
`Graph.payload` reads a value as a table of named data: a map by its entries, anything else by its
own parts. `Graph.part` looks one name up, and goes on where the value does not have it: in what the
value descends from, and so on along its line.

* `Graph.part_object_own`: an object is asked first itself.
-/

namespace SchemaFlow

/-! ## 1. Own parts -/

namespace TypeSpec

/-- The parts of a type, read as values. -/
def parts (t : TypeSpec) : Entries Value :=
  ("kind", .text t.sortName) ::
    match t with
    | scalar k => [("scalar", .text k.name)]
    | sequence e => [("element", .type e)]
    | array k ds => [("element", .text k.name), ("dimensions", .sizeList ds)]
    | mapping k v => [("key", .text k.name), ("value", .type v)]
    | handle label => [("label", .text label)]
    | record fs ancestor => [("fields", .fieldTable fs ancestor)]

theorem names_parts (t : TypeSpec) : Entries.names t.parts = t.partNames := by
  cases t <;> rfl

end TypeSpec

/-- Items under the names of their positions. -/
def indexed {α : Type} (items : List α) : Entries α :=
  items.zipIdx.map fun (v, i) => (toString i, v)

/-- Whether a place of a list is a hole. -/
def Value.isHole : Value → Bool
  | .hole => true
  | _ => false

/-- The items of a list under the names of their positions, without its holes. -/
def listedItems (items : List Value) : Entries Value :=
  (indexed items).filter fun e => !e.2.isHole

/-- The sixteen-bit units of a text; a character of two units counts twice. -/
def unitTexts (s : String) : List String :=
  s.toList.flatMap fun c => List.replicate (Text.unitsOf c) c.toString

/-- A dimension read as a value. -/
def Dimension.value : Dimension → Value
  | .free => .null
  | .fixed n => sizeValue n

/-- The number that a buffer of a class is filled with. -/
def bufferZero (className : String) : Value :=
  if className = "BigInt64Array" || className = "BigUint64Array" then .whole 0 else .number 0

namespace Graph

/-- A value's own parts in reading order, as far as it lists them. -/
def listed (g : Graph) : Value → Entries Value
  | .text s => indexed ((unitTexts s).map .text)
  | .type t => t.parts
  | .fieldTable fs _ => fs.map fun (k, t) => (k, .type t)
  | .sizeList ds => indexed (ds.map Dimension.value)
  | .drop => [("op", .text "drop")]
  | .buffer c n => indexed (List.replicate n (bufferZero c))
  | .node id =>
    match g.node id with
    | .list items => listedItems items
    | .object _ entries => entries
    | .map _ => []
  | _ => []

/-- A value's own parts in reading order. An absent value has none to read, and the founder of
    addresses lists parts that only its members have. -/
def partsOf (g : Graph) : Value → Except Fault (Entries Value)
  | .absent | .hole | .null => .error .illTyped
  | .founder (.foreign "URL") => .error .illTyped
  | v => .ok (g.listed v)

/-! ## 2. Descent -/

/-- What a value descends from directly. -/
def behind? (g : Graph) : Value → Option Value
  | .absent | .hole | .null => none
  | .bool _ => some (.founder .truth)
  | .text _ => some (.founder .text)
  | .number _ => some (.founder .number)
  | .whole _ => some (.founder .whole)
  | .instant _ => some (.founder .instant)
  | .function => some (.founder .function)
  | .symbol => some (.founder .symbol)
  | .type _ | .drop => some (.founder .object)
  | .fieldTable _ ancestor => some ((ancestor.map Value.type).getD (.founder .object))
  | .sizeList _ => some (.founder .list)
  | .buffer c _ => some (.founder (.buffer c))
  | .foreign c => some (.founder (.foreign c))
  | .founder .object => none
  | .founder (.buffer _) => some (.founder .buffers)
  | .founder _ => some (.founder .object)
  | .node id =>
    match g.node id with
    | .list _ => some (.founder .list)
    | .map _ => some (.founder .map)
    | .object .plain _ => some (.founder .object)
    | .object .bare _ => none
    | .object (.ofClass name) _ => some (.founder (.ofClass name))
    | .object (.sealed ancestor) _ => some (ancestor.getD (.founder .object))

/-- The first values of a line: a value, what it descends from, and so on. -/
def lineFrom (g : Graph) : Nat → Value → List Value
  | 0, v => [v]
  | n + 1, v =>
    v ::
      match g.behind? v with
      | some w => lineFrom g n w
      | none => []

/-- The line of a value. Besides containers it has at most a type, the founder of a family and two
    more founders. -/
def line (g : Graph) (v : Value) : List Value := g.lineFrom (g.size + 4) v

end Graph

/-! ## 3. Kinds of values -/

namespace Value

/-- Whether a value has parts of its own to be read, as primitive values have not. -/
def isObject : Value → Bool
  | .instant _ | .type _ | .fieldTable _ _ | .sizeList _ | .drop | .buffer _ _ | .foreign _
  | .node _ => true
  | .founder f => f ≠ .function
  | _ => false

/-- Whether a value counts as given: not absent, null, false, zero or an empty text. -/
def isGiven : Value → Bool
  | .absent | .hole | .null => false
  | .bool b => b
  | .text s => s ≠ ""
  | .number x => !(x == 0 || x.isNaN)
  | .whole n => n ≠ 0
  | _ => true

/-- The type that a value is. -/
def type? : Value → Option TypeSpec
  | .type t => some t
  | _ => none

/-- Whether a value is absent. -/
def isAbsent : Value → Bool
  | .absent => true
  | _ => false

/-- A value, or an empty plain table where it is absent. -/
def orEmpty (v : Value) : Value := if v.isAbsent then .emptyTable else v

/-- Whether two values are the same key of a map: primitive values by content, not-a-number equal
    to itself, containers by identity. -/
def sameKey : Value → Value → Bool
  | .absent, .absent | .null, .null | .drop, .drop => true
  | .bool a, .bool b => a == b
  | .text a, .text b => a == b
  | .number x, .number y => x == y || (x.isNaN && y.isNaN)
  | .whole a, .whole b => a == b
  | .node i, .node j => i == j
  | _, _ => false

/-- A value as a key: zero has no sign. -/
def asKey : Value → Value
  | .number x => if x == 0 then .number 0 else .number x
  | v => v

/-- Stores an entry of a map; a new key goes to the end. -/
def putKey (key v : Value) : List (Value × Value) → List (Value × Value)
  | [] => [(key.asKey, v)]
  | (k, w) :: rest => if sameKey k key then (k, v) :: rest else (k, w) :: putKey key v rest

end Value

namespace Graph

/-- Whether a value is a plain table: an object that descends from nothing but the founder of all
    objects. -/
def isPlain (g : Graph) (v : Value) : Bool :=
  v.isObject &&
    match g.behind? v with
    | none | some (.founder .object) => true
    | _ => false

/-- Whether a value is a list. -/
def isList (g : Graph) : Value → Bool
  | .sizeList _ | .founder .list => true
  | .node id =>
    match g.node id with
    | .list _ => true
    | _ => false
  | _ => false

/-- The entries of a map. -/
def mapEntries? (g : Graph) : Value → Option (List (Value × Value))
  | .node id =>
    match g.node id with
    | .map entries => some entries
    | _ => none
  | _ => none

/-- Whether a value can carry parameters: a map or a plain table. -/
def isPayload (g : Graph) (v : Value) : Bool := (g.mapEntries? v).isSome || g.isPlain v

/-- Whether a value keeps its listed parts for itself. -/
def isSealed (g : Graph) : Value → Bool
  | .text _ | .type _ | .fieldTable _ _ | .sizeList _ | .drop => true
  | .node id =>
    match g.node id with
    | .object (.sealed _) _ => true
    | _ => false
  | _ => false

/-- The text that names an entry of a map. -/
def keyText? : Value → Option String
  | .text s => some s
  | _ => none

/-- A value as a table of data: a map by its entries under texts, anything else by its parts. -/
def payload (g : Graph) (v : Value) : Except Fault (Entries Value) :=
  match g.mapEntries? v with
  | some entries => .ok (entries.filterMap fun (k, v) => (keyText? k).map fun name => (name, v))
  | none => g.partsOf v

/-! ## 4. Look-ups -/

/-- Whether a name is the text of a number, that of negative zero included. -/
def isNumberName (name : String) : Bool :=
  ["-0", "NaN", "Infinity", "-Infinity"].contains name ||
    match Json.number? name.toList with
    | some (x, []) => Decimal.numberText x = name
    | _ => false

/-- A part of a value that it has itself but does not list. -/
def unlisted (g : Graph) (v : Value) (name : String) : Found :=
  match v with
  | .text s => if name = "length" then .fixed (sizeValue (unitTexts s).length) else .absent
  | .function =>
    if name = "length" then .fixed (sizeValue 0)
    else if name = "name" then .fixed (.text "")
    else .absent
  | .sizeList ds => if name = "length" then .fixed (sizeValue ds.length) else .absent
  | .foreign "String" => if name = "length" then .fixed (sizeValue 0) else .absent
  | .foreign "RegExp" => if name = "lastIndex" then .free (sizeValue 0) else .absent
  | .foreign "Error" => if name = "stack" then .free (.text "Error") else .absent
  | .node id =>
    match g.node id with
    | .list items => if name = "length" then .free (sizeValue items.length) else .absent
    | _ => .absent
  | _ => .absent

/-- What a value itself has under a name. No number names a part of a buffer but the positions of
    its items. -/
def ownPart (g : Graph) (v : Value) (name : String) : Found :=
  match v with
  | .founder f => f.find name
  | .buffer c n =>
    match (Entries.index? name).filter (· < n) with
    | some _ => .free (bufferZero c)
    | none => if isNumberName name then .hollow else .absent
  | v =>
    match (g.listed v).find? name with
    | some w => if g.isSealed v then .fixed w else .free w
    | none => g.unlisted v name

/-- A part that is worked out for a value. -/
def workedOut? (g : Graph) (v : Value) (name : String) : Option Value :=
  match v with
  | .symbol => if name = "description" then some (.text "s") else none
  | .buffer c n =>
    if name = "length" then some (sizeValue n)
    else if name = "byteLength" then some (sizeValue (n * Family.bytesOf c))
    else if name = "byteOffset" then some (sizeValue 0)
    else if name = "buffer" then some (.foreign "ArrayBuffer")
    else none
  | .foreign c => (Family.foreignWorkedOut c).find? name
  | .node id =>
    match g.node id with
    | .map entries => if name = "size" then some (sizeValue entries.length) else none
    | _ => none
  | _ => none

/-- What is found under a name along the line of a value. -/
def find (g : Graph) (v : Value) (name : String) : Found :=
  match g.workedOut? v name with
  | some w => .workedOut w
  | none => (g.line v).foldr (fun w later => (g.ownPart w name).or later) .absent

/-- The part of a value under a name. -/
def part (g : Graph) (v : Value) (name : String) : Except Fault Value :=
  match v with
  | .absent | .hole | .null => .error .illTyped
  | v =>
    match g.find v name with
    | .absent | .hollow => .ok .absent
    | .free w | .fixed w | .workedOut w => .ok w
    | .barred => .error .illTyped
    | .ancestor => .ok ((g.behind? v).getD .null)

theorem line_eq_cons (g : Graph) (v : Value) : ∃ rest, g.line v = v :: rest := by
  rw [line, show g.size + 4 = (g.size + 3) + 1 from rfl]
  exact ⟨_, rfl⟩

/-- The founder of all objects descends from nothing. -/
theorem line_founderObject (g : Graph) : g.line (.founder .object) = [.founder .object] := by
  rw [line, show g.size + 4 = (g.size + 3) + 1 from rfl]
  rfl

theorem find_founderObject (g : Graph) (name : String) :
    g.find (.founder .object) name = Family.find .object name := by
  simp only [find, workedOut?, line_founderObject, List.foldr_cons, List.foldr_nil, ownPart]
  cases Family.find .object name <;> rfl

/-- **An object is asked first itself.** -/
theorem part_object_own {g : Graph} {id : Nat} {lineage : Lineage} {entries : Entries Value}
    {name : String} {w : Value} (hg : g.node id = .object lineage entries)
    (hw : entries.find? name = some w) : g.part (.node id) name = .ok w := by
  obtain ⟨rest, hline⟩ := g.line_eq_cons (.node id)
  have hown : g.ownPart (.node id) name = .free w ∨ g.ownPart (.node id) name = .fixed w := by
    have hl : g.listed (.node id) = entries := by simp [listed, hg]
    simp only [ownPart, hl, hw]
    split
    · exact Or.inr rfl
    · exact Or.inl rfl
  have hfind : g.find (.node id) name = .free w ∨ g.find (.node id) name = .fixed w := by
    simp only [find, workedOut?, hg, hline, List.foldr_cons]
    rcases hown with h | h
    · exact Or.inl (by rw [h]; rfl)
    · exact Or.inr (by rw [h]; rfl)
  rcases hfind with h | h <;> simp [part, h]

/-! ## 5. Labels -/

/-- What a value is called by the line it is on: the name of its class, if it has one that is not
    hidden by an entry named `constructor`. -/
def labelAlong (g : Graph) : List Value → String
  | [] => "object"
  | .founder f :: _ => if f.className = "" then "object" else f.className
  | v :: rest => if (g.listed v).has "constructor" then "object" else labelAlong g rest

/-- The families that a value descends from, the nearest first. -/
def families (g : Graph) (v : Value) : List Family :=
  (g.line v).filterMap fun w =>
    match w with
    | .founder f => some f
    | _ => none

/-- The name of the class that a value descends from, be it empty; `object` where it descends from
    nothing. -/
def className (g : Graph) (v : Value) : String :=
  match g.families v with
  | [] => "object"
  | f :: _ => f.className

/-- The name of the class that a value descends from; `object` where none is known. An object with
    a part named `constructor` of its own hides its class. -/
def label (g : Graph) (v : Value) : String := g.labelAlong (g.line v)

end Graph

end SchemaFlow
