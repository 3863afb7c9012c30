import SchemaFlow.TypeSpec.Printer

/-!
# Productions

A production says what a stage does to one name: it gives it a type, drops it, or modifies the
fields of the record that stands there. A type may be given bare or through `set`; the two differ
in nothing but how they are shown.

* `Production.apply` is the effect on the type of a name, `none` standing for no entry.
* `Production.compose` is one production with the effect of two.
* `applyAll` folds the productions of a stage into a table of types.
-/

namespace SchemaFlow

/-- What is done to one name. -/
inductive Production
  | type (t : TypeSpec)
  | set (t : TypeSpec)
  | drop
  | modify (fields : List (String × Production))
deriving Inhabited

/-- The productions of a stage, by name. -/
abbrev Produced := Entries Production

namespace Production

/-- The names of a production's parts. -/
def partNames : Production → List String
  | type t => t.partNames
  | set _ => ["op", "type"]
  | drop => ["op"]
  | modify _ => ["op", "fields"]

/-- A bare type as the operation that it is short for. -/
def operation : Production → Production
  | type t => set t
  | p => p

/-! ## 1. Effect -/

/-- The fields that a modification starts from: those of a record, else none. -/
def recordFields : Option TypeSpec → Schema
  | some (.record fields _) => fields
  | _ => []

mutual

/-- The type of a name after a production; `none` when the name is gone. -/
def apply : Production → Option TypeSpec → Option TypeSpec
  | type t, _ => some t
  | set t, _ => some t
  | drop, _ => none
  | modify fields, current => some (.record (applyFields fields (recordFields current)) none)

/-- The fields of a record after a modification. -/
def applyFields : List (String × Production) → Schema → Schema
  | [], fields => fields
  | (name, p) :: rest, fields =>
    applyFields rest <|
      match apply p (Entries.find? fields name) with
      | some t => Entries.insert fields name t
      | none => Entries.erase fields name

end

/-! ## 2. Composition -/

mutual

/-- One production with the effect of `earlier` and then this one. A modification of a modification
    stays one, so that fields which neither mentions are left alone. -/
def composeAfter : Production → Option Production → Production
  | modify fields, some (modify before) => modify (composeFields fields before)
  | modify fields, some drop => set (.record (applyFields fields []) none)
  | modify fields, some (type t) => set (.record (applyFields fields (recordFields (some t))) none)
  | modify fields, some (set t) => set (.record (applyFields fields (recordFields (some t))) none)
  | later, _ => later

/-- Field by field, the later productions on top of the earlier ones. -/
def composeFields : List (String × Production) → Produced → Produced
  | [], before => before
  | (name, p) :: rest, before =>
    composeFields rest (Entries.insert before name (composeAfter p (Entries.find? before name)))

end

/-- **One production with the effect of two**, the earlier one possibly missing. -/
def compose (earlier : Option Production) (later : Production) : Production :=
  later.composeAfter earlier

/-! ## 3. Text -/

mutual

/-- The characters of a production. -/
def written : Production → List Char
  | type t => t.written
  | set t => t.written
  | drop => "drop".toList
  | modify fields => "modify".toList ++ braced (fieldsWritten fields)

/-- The characters of each entry. -/
def fieldsWritten : List (String × Production) → List (List Char)
  | [] => []
  | (name, p) :: rest => entryWritten name (written p) :: fieldsWritten rest

end

/-- The text of a production. -/
def text (p : Production) : String := String.ofList p.written

end Production

/-- The text of productions: their entries in braces. -/
def Produced.text (ps : Produced) : String := String.ofList (braced (Production.fieldsWritten ps))

/-! ## 4. Tables of types -/

/-- Folds productions into a table of types, which keeps its entries in order of arrival. -/
def applyAll : Produced → Entries TypeSpec → Entries TypeSpec
  | [], table => table
  | (name, p) :: rest, table =>
    applyAll rest <|
      match p.apply (table.find? name) with
      | some t => table.put name t
      | none => table.erase name

end SchemaFlow
