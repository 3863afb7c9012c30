import SchemaFlow.Entries
import SchemaFlow.Filling

/-!
# Types

The types that describe the data of a pipeline: scalars, sequences, arrays of a known rank,
mappings, handles whose layout is not modelled, and records.

* `ScalarKind.ofName?_name`: a scalar kind is found by its name.
* `ScalarKind.eq_of_name_eq`: no two kinds share a name.
-/

namespace SchemaFlow

/-! ## 1. Scalars and dimensions -/

/-- The kinds of scalar data. -/
inductive ScalarKind
  | float
  | integer
  | string
  | boolean
  | datetime
deriving Repr, DecidableEq, Inhabited

namespace ScalarKind

/-- The word that stands for a kind in every text. -/
def name : ScalarKind → String
  | float => "float"
  | integer => "integer"
  | string => "string"
  | boolean => "boolean"
  | datetime => "datetime"

/-- All kinds, in the order in which they are listed to a reader. -/
def all : List ScalarKind := [float, integer, string, boolean, datetime]

/-- The kind of a name. -/
def ofName? (s : String) : Option ScalarKind := all.find? fun k => k.name = s

/-- **A kind is found by its name.** -/
theorem ofName?_name (k : ScalarKind) : ofName? k.name = some k := by
  cases k <;> decide

/-- **No two kinds share a name.** -/
theorem eq_of_name_eq {k l : ScalarKind} (h : k.name = l.name) : k = l := by
  have hk := ofName?_name k
  rw [h, ofName?_name l] at hk
  exact (Option.some.inj hk).symm

theorem name_of_ofName? {s : String} {k : ScalarKind} (h : ofName? s = some k) : k.name = s := by
  have := List.find?_some h
  simpa using this

end ScalarKind

/-- One dimension of an array: free, or of a fixed positive size. -/
inductive Dimension
  | free
  | fixed (size : Nat)
deriving Repr, DecidableEq, Inhabited

/-! ## 2. Types -/

/-- A type.

A record has its fields and, rarely, an **ancestor**: a type that lends its parts to the names which
the record does not declare. An ancestor only steers how a value is observed under the record; it is
no part of what the record demands, and it is neither printed nor compared. -/
inductive TypeSpec
  | scalar (kind : ScalarKind)
  | sequence (element : TypeSpec)
  | array (element : ScalarKind) (dimensions : List Dimension)
  | mapping (key : ScalarKind) (value : TypeSpec)
  | handle (label : String)
  | record (fields : List (String × TypeSpec)) (ancestor : Option TypeSpec)
deriving Repr, BEq, Inhabited

/-- A schema: the type of each name, in reading order. -/
abbrev Schema := Entries TypeSpec

namespace TypeSpec

/-- The record that declares nothing. -/
def emptyRecord : TypeSpec := .record [] none

/-- The names of a type's parts. -/
def partNames : TypeSpec → List String
  | scalar _ => ["kind", "scalar"]
  | sequence _ => ["kind", "element"]
  | array _ _ => ["kind", "element", "dimensions"]
  | mapping _ _ => ["kind", "key", "value"]
  | handle _ => ["kind", "label"]
  | record _ _ => ["kind", "fields"]

/-- The word that tells the sorts of types apart. -/
def sortName : TypeSpec → String
  | scalar _ => "scalar"
  | sequence _ => "sequence"
  | array _ _ => "shapedArray"
  | mapping _ _ => "mapping"
  | handle _ => "opaque"
  | record _ _ => "record"

/-- The record of a filled table. -/
def ofFilling (f : Filling TypeSpec) : TypeSpec := .record f.entries f.ancestor

end TypeSpec

end SchemaFlow
