import SchemaFlow.Decimal.Nearest
import SchemaFlow.Value.Basic

/-!
# What a family shares

A founder has parts that it does not list. They are found by their names only, and every member of
the family finds them with its founder. Nearly all of them are functions. Some are **worked out**
for each member, such as the size of a map: the founder itself, and what merely descends from a
member, have no such part to read.

* `Family.find`: what a founder has under a name.
* `Family.find_object_ancestor`: the place of the ancestor stands with the founder of all objects.
* `Family.find_object`: under any other name it has a function or nothing.
-/

namespace SchemaFlow

/-- What a look-up by a name finds. -/
inductive Found
  | absent
  /-- a part that an entry may cover -/
  | free (v : Value)
  /-- a part that no entry covers -/
  | fixed (v : Value)
  /-- a part worked out for the value that is asked: it is found through no other value, and no
      entry covers it -/
  | workedOut (v : Value)
  /-- a part that can be neither read nor covered -/
  | barred
  /-- the place of the ancestor -/
  | ancestor
  /-- a place that reads as absent and into which nothing is stored -/
  | hollow
deriving Inhabited

/-- What is found first. -/
def Found.or : Found → Found → Found
  | .absent, later => later
  | found, _ => found

@[simp] theorem Found.absent_or (f : Found) : Found.or .absent f = f := rfl

/-- The size of something as a value. -/
def sizeValue (n : Nat) : Value := .number (Decimal.toFloat n 0)

namespace Family

/-! ## 1. Functions -/

/-- The functions of classes whose inside is not modelled. -/
def foreignFunctions : String → List String
  | "Set" =>
    ["add", "clear", "delete", "difference", "entries", "forEach", "has", "intersection",
     "isDisjointFrom", "isSubsetOf", "isSupersetOf", "keys", "symmetricDifference", "union",
     "values"]
  | "WeakMap" => ["delete", "get", "has", "set"]
  | "Promise" => ["catch", "finally", "then"]
  | "RegExp" => ["compile", "exec", "test", "toString"]
  | "Error" => ["toString"]
  | "ArrayBuffer" => ["resize", "slice", "transfer", "transferToFixedLength"]
  | "URL" => ["toJSON", "toString"]
  | "DataView" =>
    ["getBigInt64", "getBigUint64", "getFloat32", "getFloat64", "getInt8", "getInt16", "getInt32",
     "getUint8", "getUint16", "getUint32", "setBigInt64", "setBigUint64", "setFloat32",
     "setFloat64", "setInt8", "setInt16", "setInt32", "setUint8", "setUint16", "setUint32"]
  | _ => []

/-- The functions of a family, apart from those that all objects have. -/
def functions : Family → List String
  | object =>
    ["constructor", "hasOwnProperty", "isPrototypeOf", "propertyIsEnumerable", "toLocaleString",
      "toString", "valueOf", "__defineGetter__", "__defineSetter__", "__lookupGetter__",
      "__lookupSetter__"]
  | list =>
    ["at", "concat", "copyWithin", "entries", "every", "fill", "filter", "find", "findIndex",
     "findLast", "findLastIndex", "flat", "flatMap", "forEach", "includes", "indexOf", "join",
     "keys", "lastIndexOf", "map", "pop", "push", "reduce", "reduceRight", "reverse", "shift",
     "slice", "some", "sort", "splice", "toReversed", "toSorted", "toSpliced", "unshift",
     "values", "with"]
  | map => ["clear", "delete", "entries", "forEach", "get", "has", "keys", "set", "values"]
  | instant =>
    ["getDate", "getFullYear", "getHours", "getMilliseconds", "getMinutes", "getMonth", "getSeconds",
     "getUTCDate", "getUTCFullYear", "getUTCHours", "getUTCMilliseconds", "getUTCMinutes",
     "getUTCMonth", "getUTCSeconds", "setDate", "setFullYear", "setHours", "setMilliseconds",
     "setMinutes", "setMonth", "setSeconds", "setUTCDate", "setUTCFullYear", "setUTCHours",
     "setUTCMilliseconds", "setUTCMinutes", "setUTCMonth", "setUTCSeconds", "getDay", "getUTCDay",
     "getTime", "setTime", "getTimezoneOffset", "getYear", "setYear", "toDateString",
     "toGMTString", "toISOString", "toJSON", "toLocaleDateString", "toLocaleTimeString",
     "toTimeString", "toUTCString"]
  | function => ["apply", "bind", "call"]
  | text | foreign "String" =>
    ["anchor", "at", "big", "blink", "bold", "charAt", "charCodeAt", "codePointAt", "concat",
     "endsWith", "fixed", "fontcolor", "fontsize", "includes", "indexOf", "isWellFormed",
     "italics", "lastIndexOf", "link", "localeCompare", "match", "matchAll", "normalize",
     "padEnd", "padStart", "repeat", "replace", "replaceAll", "search", "slice", "small", "split",
     "startsWith", "strike", "sub", "substr", "substring", "sup", "toLocaleLowerCase",
     "toLocaleUpperCase", "toLowerCase", "toUpperCase", "toWellFormed", "trim", "trimEnd",
     "trimLeft", "trimRight", "trimStart"]
  | number | foreign "Number" => ["toExponential", "toFixed", "toPrecision"]
  | buffers =>
    ["at", "copyWithin", "entries", "every", "fill", "filter", "find", "findIndex", "findLast",
     "findLastIndex", "forEach", "includes", "indexOf", "join", "keys", "lastIndexOf", "map",
     "reduce", "reduceRight", "reverse", "set", "slice", "some", "sort", "subarray", "toReversed",
     "toSorted", "values", "with"]
  | foreign className => foreignFunctions className
  | truth | whole | symbol | buffer _ | ofClass _ => []

/-! ## 2. Parts of other kinds -/

/-- The bytes that a number takes in a buffer of a class. -/
def bytesOf : String → Nat
  | "Int8Array" | "Uint8Array" | "Uint8ClampedArray" => 1
  | "Int16Array" | "Uint16Array" | "Float16Array" => 2
  | "Int32Array" | "Uint32Array" | "Float32Array" => 4
  | _ => 8

/-- The parts that are worked out for a member of a class whose inside is not modelled. Such an
    object is empty. -/
def foreignWorkedOut : String → Entries Value
  | "Set" => [("size", sizeValue 0)]
  | "ArrayBuffer" =>
    [("byteLength", sizeValue 0), ("maxByteLength", sizeValue 0), ("resizable", .bool false),
      ("detached", .bool false)]
  | "DataView" =>
    [("buffer", .foreign "ArrayBuffer"), ("byteLength", sizeValue 0), ("byteOffset", sizeValue 0)]
  | "RegExp" =>
    [("source", .text "(?:)"), ("flags", .text ""), ("global", .bool false),
      ("ignoreCase", .bool false), ("multiline", .bool false), ("dotAll", .bool false),
      ("sticky", .bool false), ("unicode", .bool false), ("unicodeSets", .bool false),
      ("hasIndices", .bool false)]
  | "URL" =>
    ["href", "origin", "protocol", "username", "password", "host", "hostname", "pathname", "search",
        "hash"].map (fun name => (name, .text "")) ++
      [("searchParams", .foreign "URLSearchParams")]
  | _ => []

/-- The names of the parts that are worked out for the members of a family. -/
def workedOutNames : Family → List String
  | map => ["size"]
  | symbol => ["description"]
  | buffers => ["buffer", "byteLength", "byteOffset", "length"]
  | foreign className => (foreignWorkedOut className).names
  | _ => []

/-- The parts of a founder that are no functions. -/
def constants : Family → Entries Found
  | list => [("length", .free (sizeValue 0))]
  | text => [("length", .fixed (sizeValue 0))]
  | function =>
    [("length", .fixed (sizeValue 0)), ("name", .fixed (.text "")), ("arguments", .barred),
      ("caller", .barred)]
  | buffer className => [("BYTES_PER_ELEMENT", .fixed (sizeValue (bytesOf className)))]
  | foreign "Error" => [("name", .free (.text "Error")), ("message", .free (.text ""))]
  | _ => []

/-! ## 3. Look-ups -/

/-- What a founder has under a name. -/
def find (f : Family) (name : String) : Found :=
  if f = object ∧ name = ancestorName then .ancestor
  else if f.workedOutNames.contains name then .barred
  else
    match f.constants.find? name with
    | some found => found
    | none =>
      if name = "constructor" ∨ f.functions.contains name then .free .function else .absent

/-- **The place of the ancestor stands with the founder of all objects.** -/
theorem find_object_ancestor : find object ancestorName = .ancestor := by
  simp [find]

/-- Any other name is a function that all objects share, or nothing. -/
theorem find_object {name : String} (hn : name ≠ ancestorName) :
    find object name = .free .function ∨ find object name = .absent := by
  simp only [find, hn, and_false, if_false, workedOutNames, constants, Entries.find?,
    List.contains_nil, Bool.false_eq_true]
  split
  · exact Or.inl rfl
  · exact Or.inr rfl

/-- The name of the class of a family's members. -/
def className : Family → String
  | object => "Object"
  | list => "Array"
  | map => "Map"
  | instant => "Date"
  | function => "Function"
  | text => "String"
  | number => "Number"
  | truth => "Boolean"
  | whole => "BigInt"
  | symbol => "Symbol"
  | buffers => "TypedArray"
  | buffer className => className
  | foreign className => className
  | ofClass name => name

end Family

end SchemaFlow
