import SchemaFlow.Contract.Check
import SchemaFlow.Observation.Unchecked

/-!
# Checks of declarations that were never checked

Data can be held against a table of declared types before anything is known of that table: what is
declared may be any value, which passes for a type as far as it has the parts of one, and the
heading may be no slot of a contract. A violation needs a type to show, so a value that spells out
none is a fault as soon as it is violated.
-/

namespace SchemaFlow

/-- What a heading is called that is no slot: nothing is known of it, unless all tables have a part
    of that name. -/
def headingLabel (name : String) : String :=
  match Family.find .object name with
  | .ancestor => "[object Object]"
  | .free _ =>
    let shown := if name = "constructor" then "Object" else name
    s!"function {shown}() \x7b [native code] \x7d"
  | _ => "undefined"

/-- The heading of a name: the slot of that name, if there is one. -/
def Heading.ofName (name : String) : Heading :=
  match Slot.ofName? name with
  | some s => .slot s
  | none => .other name (headingLabel name)

/-- The name of a slot is the heading of that slot. -/
theorem Heading.ofName_name (s : Slot) : ofName s.name = .slot s := by
  rw [ofName, Slot.ofName?_name]

/-- The type that is shown for what is declared. -/
def shownType (g : Graph) (declared : Value) : Except Fault TypeSpec :=
  match g.typeLike? declared with
  | some t => .ok t
  | none => .error .illTyped

/-- The finding about one declared name, if there is one. -/
def checkKeyGiven (g : Graph) (heading : Heading) (data : Entries Value) (key : String)
    (declared : Value) : Except Fault (Option Finding) :=
  match declared with
  | .type t => checkKey g heading data key t
  | declared =>
    match (data.find? key).getD .absent with
    | .absent => do
      let t ← shownType g declared
      .ok (some (.missing heading key t))
    | v => do
      let observed ← g.observeGiven declared v
      match ← g.diagnoseGiven declared (.type observed) with
      | some m => do
        let t ← shownType g declared
        .ok (some (.misfit heading key t observed m))
      | none => .ok none

/-- Checks every declared name, whatever is declared for it. -/
def checkGiven (g : Graph) (stage : Option String) (heading : Heading) (data : Entries Value) :
    Entries Value → Except Fault (List Violation)
  | [] => .ok []
  | (key, declared) :: rest => do
    let found ← checkKeyGiven g heading data key declared
    let later ← checkGiven g stage heading data rest
    .ok (match found with
      | some f => ⟨stage, f⟩ :: later
      | none => later)

/-- **Declared types are checked as in any other check.** -/
theorem checkGiven_types (g : Graph) (stage : Option String) (heading : Heading)
    (data : Entries Value) : ∀ schema : Schema,
      checkGiven g stage heading data (schema.map fun e => (e.1, .type e.2)) =
        checkSchema g stage heading data schema
  | [] => rfl
  | (key, t) :: rest => by
      rw [List.map_cons, checkGiven, checkSchema, checkGiven_types g stage heading data rest]
      rfl

end SchemaFlow
