/-!
# The slots of a contract

A contract has five slots. Declarations and violations call them by name, messages to a reader by
a label. A check may also be made under a heading that is none of them.

* `Slot.ofName?_name`: a slot is found by its name.
-/

namespace SchemaFlow

/-- A slot of a contract. -/
inductive Slot
  | fitRequires
  | transformRequires
  | fitParameters
  | fittedState
  | producedOrModified
deriving Repr, DecidableEq

namespace Slot

/-- The name of a slot. -/
def name : Slot → String
  | fitRequires => "fitRequires"
  | transformRequires => "transformRequires"
  | fitParameters => "fitParameters"
  | fittedState => "fittedState"
  | producedOrModified => "producedOrModified"

/-- What a slot is called in messages. -/
def label : Slot → String
  | fitRequires => "fit input"
  | transformRequires => "transform input"
  | fitParameters => "fit parameter"
  | fittedState => "fitted state"
  | producedOrModified => "output"

/-- All slots, in the order in which they are listed to a reader. -/
def all : List Slot :=
  [fitRequires, transformRequires, fitParameters, fittedState, producedOrModified]

/-- The names of all slots. -/
def names : List String := all.map name

/-- The slot of a name. -/
def ofName? (s : String) : Option Slot := all.find? fun slot => slot.name = s

theorem ofName?_name (slot : Slot) : ofName? slot.name = some slot := by
  cases slot <;> decide

end Slot

/-- The heading of a check: a slot, or a name that is none and what it is called in messages. -/
inductive Heading
  | slot (s : Slot)
  | other (name label : String)
deriving Repr, DecidableEq

namespace Heading

/-- The name of a heading. -/
def name : Heading → String
  | slot s => s.name
  | other name _ => name

/-- What a heading is called in messages. -/
def label : Heading → String
  | slot s => s.label
  | other _ label => label

end Heading

/-- The two phases of a stage. -/
inductive Phase
  | fit
  | transform
deriving Repr, DecidableEq

/-- The name of a phase. -/
def Phase.name : Phase → String
  | .fit => "fit"
  | .transform => "transform"

end SchemaFlow
