import SchemaFlow.Observation
import SchemaFlow.Production.Typed

/-!
# Productions on data

A pass through a chain works on a table that mixes values and types. `Production.applyTo` applies a
production to such an entry: only a modification looks at it, as the record that it exhibits.
-/

namespace SchemaFlow

namespace Graph

/-- The fields that a modification of a value starts from. -/
def fieldsOf (g : Graph) (current : Value) : Except Fault Schema :=
  if current.isAbsent then .ok []
  else do
    let t ← g.observe (some TypeSpec.emptyRecord) current
    .ok (Production.recordFields (some t))

end Graph

namespace Production

/-- The type of a name after a production, `none` when the name is gone. -/
def applyTo (g : Graph) (current : Value) : Production → Except Fault (Option TypeSpec)
  | modify fields => do
    let before ← g.fieldsOf current
    .ok (some (.record (applyFields fields before) none))
  | p => .ok (p.apply none)

end Production

/-- Folds productions into a table of data, which keeps its entries in order of arrival. -/
def effectOn (g : Graph) : Produced → Entries Value → Except Fault (Entries Value)
  | [], table => .ok table
  | (name, p) :: rest, table => do
    let next ← p.applyTo g ((table.find? name).getD .absent)
    effectOn g rest <|
      match next with
      | some t => table.put name (.type t)
      | none => table.erase name

end SchemaFlow
