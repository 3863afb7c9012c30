import SchemaFlow.Execution.Stage

/-!
# Recipes

Stage logic spelled as a list of steps. A step sets or reads a state, or edits a table; a transform
edits the data itself, while what a fit edits is thrown away. The values that a recipe holds are made
when a step needs them, and anew each time.
-/

namespace SchemaFlow

/-- One step of a recipe. -/
inductive Action
  | setState (key : String) (supply : Supply)
  | setStateFromData (key source : String)
  | setStateFromParameter (key source : String)
  | getState (key : String)
  | store (key : String) (supply : Supply)
  | storeState (key state : String)
  | copy (key source : String)
  | remove (key : String)
  | fail (message : String)

namespace Action

/-- Takes one step on the table `out`, reading data from `data` and parameters from `parameters`. -/
def step (data parameters : Source) (out : Bag) : Action → Script Bag
  | setState key supply => do
    let v ← Script.obtain supply
    Script.put key v
    return out
  | setStateFromData key source => do
    let v ← Script.ask fun g => data.part g source
    Script.put key v
    return out
  | setStateFromParameter key source => do
    let v ← Script.ask fun g => parameters.part g source
    Script.put key v
    return out
  | getState key => do
    let _ ← Script.get key
    return out
  | store key supply => do
    let v ← Script.obtain supply
    Script.ask fun g => out.store g key v
  | storeState key state => do
    let v ← Script.get state
    Script.ask fun g => out.store g key v
  | copy key source => Script.ask fun g => do
    let v ← data.part g source
    out.store g key v
  | remove key => return out.remove key
  | fail message => .fail (.failed message)

end Action

/-- A fit: the steps read the data and the parameters, and edit a table that is thrown away. -/
def fitRecipe (data parameters : Source) : List Action → Bag → Script Unit
  | [], _ => return ()
  | a :: rest, out => do
    let out ← a.step data parameters out
    fitRecipe data parameters rest out

/-- A transform: the steps read and edit the data. It has no parameters. -/
def transformRecipe : List Action → Bag → Script Bag
  | [], data => return data
  | a :: rest, data => do
    let data ← a.step (.bag data) (.bag {}) data
    transformRecipe rest data

/-- The stage of two recipes. -/
def Stage.ofRecipes (label : String) (contract : Contract) (fit : Option (List Action))
    (transform : List Action) : Stage :=
  { label := label
    contract := contract
    fit := fit.map fun steps => fun data parameters => fitRecipe data parameters steps {}
    transform := transformRecipe transform }

end SchemaFlow
