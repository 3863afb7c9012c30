import SchemaFlow.Decimal.Text
import SchemaFlow.TypeSpec.Basic

/-!
# Writing types

A type is written as a word, followed by its parts in angle brackets, square brackets or braces:
`sequence<float>`, `array<float>[*, 3]`, `mapping<string, float>`, `opaque<Model>`,
`record` with its fields in braces. Parts are separated by a comma and a space. Hints are not
written.
-/

namespace SchemaFlow

/-- Texts in a row, a comma and a space between two of them. -/
def commaJoined : List (List Char) → List Char
  | [] => []
  | [cs] => cs
  | cs :: ds :: rest => cs ++ ',' :: ' ' :: commaJoined (ds :: rest)

/-- An entry of a table: name, colon, space, content. -/
def entryWritten (name : String) (content : List Char) : List Char :=
  name.toList ++ ':' :: ' ' :: content

/-- A row of entries in braces. -/
def braced (entries : List (List Char)) : List Char := '\x7b' :: (commaJoined entries ++ ['\x7d'])

namespace TypeSpec

/-- The text of a dimension: a star when it is free. -/
def dimensionWritten : Dimension → List Char
  | .free => ['*']
  | .fixed n => (Decimal.sizeText n).toList

mutual

/-- The characters of a type. -/
def written : TypeSpec → List Char
  | .scalar k => k.name.toList
  | .sequence e => "sequence<".toList ++ (written e ++ ['>'])
  | .array k ds =>
    "array<".toList ++ (k.name.toList ++ '>' :: '[' ::
      (commaJoined (ds.map dimensionWritten) ++ [']']))
  | .mapping k v => "mapping<".toList ++ (k.name.toList ++ ',' :: ' ' :: (written v ++ ['>']))
  | .handle label => "opaque<".toList ++ (label.toList ++ ['>'])
  | .record fs _ => "record".toList ++ braced (fieldsWritten fs)

/-- The characters of each field of a record. -/
def fieldsWritten : List (String × TypeSpec) → List (List Char)
  | [] => []
  | (name, t) :: rest => entryWritten name (written t) :: fieldsWritten rest

end

section Equations

variable (k : ScalarKind)

@[simp] theorem written_scalar : written (.scalar k) = k.name.toList := rfl

@[simp] theorem written_sequence (e : TypeSpec) :
    written (.sequence e) = "sequence<".toList ++ (written e ++ ['>']) := rfl

@[simp] theorem written_array (ds : List Dimension) :
    written (.array k ds) = "array<".toList ++ (k.name.toList ++ '>' :: '[' ::
      (commaJoined (ds.map dimensionWritten) ++ [']'])) := rfl

@[simp] theorem written_mapping (v : TypeSpec) :
    written (.mapping k v) =
      "mapping<".toList ++ (k.name.toList ++ ',' :: ' ' :: (written v ++ ['>'])) := rfl

@[simp] theorem written_handle (label : String) :
    written (.handle label) = "opaque<".toList ++ (label.toList ++ ['>']) := rfl

@[simp] theorem written_record (fs : List (String × TypeSpec)) (ancestor : Option TypeSpec) :
    written (.record fs ancestor) = "record".toList ++ braced (fieldsWritten fs) := rfl

@[simp] theorem fieldsWritten_nil : fieldsWritten [] = [] := rfl

@[simp] theorem fieldsWritten_cons (name : String) (t : TypeSpec)
    (fs : List (String × TypeSpec)) :
    fieldsWritten ((name, t) :: fs) = entryWritten name (written t) :: fieldsWritten fs := rfl

end Equations

/-- The text of a type. -/
def text (t : TypeSpec) : String := String.ofList t.written

end TypeSpec

/-- The text of a schema: its entries in braces. -/
def Schema.text (s : Schema) : String := String.ofList (braced (TypeSpec.fieldsWritten s))

end SchemaFlow
