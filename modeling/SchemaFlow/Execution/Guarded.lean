import SchemaFlow.Chain.Pass
import SchemaFlow.Execution.Run

/-!
# Guarded runs

Stages run behind a guard: the data is checked against the contracts before any logic runs. A guard
that finds violations refuses the run, or only warns where it is not enforced.

* `fitStage` and `transformStage` run one member of a session.
* `fitRow` fits a row of members in order, and transforms the data through each, so that the next
  one is fitted on what it will see. `fitChain` does so with all members.
* `transformRow` transforms through a row of members, `transformChain` through all.
-/

namespace SchemaFlow

/-- How stages are run. -/
structure RunOptions where
  enforce : Bool := true
  settings : LogSettings := {}

/-! ## 1. Observed schemas -/

/-- Stores the observed types of the present entries. -/
def fillObserved (g : Graph) :
    Filling TypeSpec → Entries Value → Except Fault (Filling TypeSpec)
  | f, [] => .ok f
  | f, (key, v) :: rest =>
    if v.isAbsent then fillObserved g f rest
    else do
      let t ← g.observe none v
      match f.store t.partNames key t with
      | some f => fillObserved g f rest
      | none => .error (.sealed key)

/-- The observed types of the data. -/
def observedData (g : Graph) (data : Entries Value) : Except Fault Schema := do
  .ok (← fillObserved g {} data).entries

/-- Stores the observed types of a state. -/
def fillState (g : Graph) (declared : Schema) : Schema → Entries Value → Except Fault Schema
  | s, [] => .ok s
  | s, (key, v) :: rest => do
    let t ← g.observe (declared.find? key) v
    fillState g declared (s.insert key t) rest

/-- The observed types of a stage's state, each under its declared type. -/
def Member.observedState (g : Graph) (m : Member) : Except Fault Schema :=
  fillState g m.stage.contract.fittedState [] m.state

namespace Run

/-! ## 2. Guards and logic -/

/-- Refuses a run with violations, or warns. -/
def guardWith (options : RunOptions) (phase : String) (violations : List Violation) : Run Unit :=
  if violations.isEmpty then pure ()
  else if options.enforce then stop (.refused phase violations)
  else tell (violationLines options.settings (phase ++ " (not enforced)") violations)

/-- Logs a schema behind a word. -/
def tellSchema (options : RunOptions) (word : String) (schema : Graph → Except Fault Schema) :
    Run Unit := do
  if options.settings.schemas then
    let s ← lift (schema (← graph))
    tell [.info (Colour.gray.paint ("  " ++ word ++ " " ++ Schema.text s))]

/-- Logs a line about a stage. -/
def tellStage (options : RunOptions) (line : LogLine) : Run Unit :=
  if options.settings.stages then tell [line] else pure ()

/-- Enters the fit of a stage. -/
def callFit (i : Nat) (stage : Stage) (data parameters : Source) : Run Unit :=
  match stage.fit with
  | none => return ()
  | some fit => enterFit i (fit data parameters) (done ())

/-- Enters the transform of a stage, on a copy of the data. -/
def callTransform (i : Nat) (stage : Stage) (data : Entries Value) : Run Bag :=
  enterTransform i (stage.transform { entries := data }) done

/-- Transforms and logs it. -/
def transformLogged (options : RunOptions) (i : Nat) (name : String) (stage : Stage)
    (data : Entries Value) : Run Bag := do
  tellSchema options "in " fun g => observedData g data
  let out ← callTransform i stage data
  tellStage options (.timed (Colour.green.paint "✓ transform" ++ " " ++ name))
  tellSchema options "out" fun g => observedData g out.entries
  return out

/-! ## 3. One stage -/

/-- Fits the member at a position, under a name for its messages. Parameters that are absent are an
    empty table. -/
def fitStage (options : RunOptions) (i : Nat) (name : String) (data parameters : Value) :
    Run Unit := do
  let m ← memberAt i
  let g ← graph
  let parameters := parameters.orEmpty
  let table ← lift (g.payload data)
  let found ← lift (m.stage.contract.checkFit g (some name) table parameters)
  guardWith options ("fit " ++ name) found
  tellStage options (.info (Colour.cyan.paint "▶ fit" ++ " " ++ name))
  callFit i m.stage (.value data) (.value parameters)
  tellStage options (.timed (Colour.green.paint "✓ fit" ++ " " ++ name))
  let m ← memberAt i
  tellSchema options "state" fun g => m.observedState g

/-- Transforms through the member at a position, under a name for its messages. -/
def transformStage (options : RunOptions) (i : Nat) (name : String) (data : Value) : Run Bag := do
  let m ← memberAt i
  let g ← graph
  let table ← lift (g.payload data)
  let found ← lift (m.stage.contract.checkTransform g (some name) table m.isFitted)
  guardWith options ("transform " ++ name) found
  let entries ← lift (g.partsOf data)
  transformLogged options i name m.stage entries

/-! ## 4. Rows of stages -/

/-- Stages in the order in which they run: the name of each and its position in the session. -/
abbrev Row := List (String × Nat)

/-- All members of a session. -/
def everyone : Run Row := do
  return (← session).members.zipIdx.map fun (m, i) => (m.name, i)

/-- The members of a row with their positions, each under its name in the row. -/
def membersOf : Row → Run (List (Nat × Member))
  | [] => return []
  | (name, i) :: rest => do
    let m ← memberAt i
    let ms ← membersOf rest
    return (i, { m with name := name }) :: ms

/-- The chain of a row. -/
def chainOf (ms : List (Nat × Member)) : Run Chain :=
  lift (Chain.ofLinks (ms.map fun (_, m) => (Value.text m.name, Link.stage m.stage.contract)))

/-- The line that opens the work on a stage of a chain. -/
def headline (k count : Nat) (name : String) (phase : Phase) : LogLine :=
  .info ("\n" ++ Colour.cyan.paint "▶ stage" ++ s!" {k + 1}/{count} {name} " ++
    Colour.gray.paint ("— " ++ phase.name))

/-- The parameters of one stage, copied out of those of the chain. -/
def parametersFor (g : Graph) (parameters : Value) (name : String) : Except Fault Bag := do
  match ← g.part parameters name with
  | .absent => .ok {}
  | v => do
    let entries ← g.parameterEntries v
    let named ← g.namedEntries entries
    .ok { entries := Entries.ofList named }

/-- Fits members, the first of which is the `k`-th of its row, and transforms the data through
    each. -/
def fitFrom (options : RunOptions) (parameters : Value) (count : Nat) :
    Nat → List (Nat × Member) → Bag → Run Bag
  | _, [], data => return data
  | k, (i, m) :: rest, data => do
    tellStage options (headline k count m.name .fit)
    let given ← lift (parametersFor (← graph) parameters m.name)
    callFit i m.stage (.bag data) (.bag given)
    let data ← transformLogged options i m.name m.stage data.entries
    tellStage options (.timed (Colour.green.paint "✓ done" ++ " " ++ m.name))
    fitFrom options parameters count (k + 1) rest data

/-- Transforms the data through members, the first of which is the `k`-th of its row. -/
def transformFrom (options : RunOptions) (count : Nat) :
    Nat → List (Nat × Member) → Bag → Run Bag
  | _, [], data => return data
  | k, (i, m) :: rest, data => do
    tellStage options (headline k count m.name .transform)
    let data ← transformLogged options i m.name m.stage data.entries
    transformFrom options count (k + 1) rest data

/-- **Fits the members of a row in order.** The whole chain is checked before the first one runs. -/
def fitRow (options : RunOptions) (row : Row) (data parameters : Value) : Run Bag := do
  let ms ← membersOf row
  let c ← chainOf ms
  let g ← graph
  let table ← lift (g.payload data)
  let found ← lift (c.checkFit g table (Chain.parametersOf parameters))
  guardWith options "fit" found
  let entries ← lift (g.partsOf data)
  fitFrom options parameters.orEmpty ms.length 0 ms { entries := entries }

/-- The names of a row whose members are fitted. -/
def fittedNames (ms : List (Nat × Member)) : List String :=
  (ms.filter fun (_, m) => m.isFitted).map fun (_, m) => m.name

/-- **Transforms through the members of a row.** The whole chain is checked before the first one
    runs, and so is that the stages with state are fitted. -/
def transformRow (options : RunOptions) (row : Row) (data : Value) : Run Bag := do
  let ms ← membersOf row
  let c ← chainOf ms
  let g ← graph
  let table ← lift (g.payload data)
  let found ← lift (c.checkTransform g table (fittedNames ms))
  guardWith options "transform" found
  let entries ← lift (g.partsOf data)
  transformFrom options ms.length 0 ms { entries := entries }

/-! ## 5. All stages -/

/-- The chain of all members. -/
def chain : Run Chain := do
  chainOf (← membersOf (← everyone))

/-- Fits all members. -/
def fitChain (options : RunOptions) (data parameters : Value) : Run Bag := do
  fitRow options (← everyone) data parameters

/-- Transforms through all members. -/
def transformChain (options : RunOptions) (data : Value) : Run Bag := do
  transformRow options (← everyone) data

end Run

end SchemaFlow
