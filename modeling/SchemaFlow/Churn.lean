import SchemaFlow.Declaration.Compile
import SchemaFlow.Execution.Guarded
import SchemaFlow.Report.Command

/-!
# A pipeline that scores churn

An example of stages that run under a declaration: amounts are read as numbers, standardised by
mean and deviation, and turned into a risk that is compared with a threshold. The contracts come
from a declaration, the logic is here; the pipeline is fitted on four amounts and then scores two.
-/

namespace SchemaFlow.Churn

/-! ## 1. Numbers -/

/-- The number that a value counts as; texts are read, and what is no number is not-a-number. -/
def numeric : Value → Float
  | .number x => x
  | .null => 0
  | .bool b => if b then 1 else 0
  | .text s =>
    match Environment.trimmed s.toList with
    | [] => 0
    | cs =>
      match Json.number? cs with
      | some (x, []) => x
      | _ => 0.0 / 0.0
  | _ => 0.0 / 0.0

/-- The numbers of a list in the data. -/
def numbers (data : Source) (name : String) : Script (List Float) := do
  let v ← Script.ask fun g => data.part g name
  let items ← Script.ask fun g => .ok (g.items? v)
  match items with
  | some items => return items.map numeric
  | none => .fail (.failed "expected a list")

/-- A list of numbers as a value. -/
def numberList (xs : List Float) : Script Value := Script.new (.list (xs.map .number))

/-- The sum of numbers, from left to right. -/
def sum (xs : List Float) : Float := xs.foldl (· + ·) 0

/-- The mean of numbers. -/
def mean (xs : List Float) : Float := sum xs / xs.length.toFloat

/-- The deviation of numbers, at least one number being needed; one where it vanishes. -/
def deviation (xs : List Float) : Float :=
  let m := mean xs
  let d := Float.sqrt (mean (xs.map fun x => (x - m) * (x - m)))
  if d == 0 || d.isNaN then 1 else d

/-- The part of the amounts that are below zero. -/
def risk (amounts : List Float) : Float :=
  if amounts.isEmpty then 0
  else (amounts.filter (· < 0)).length.toFloat / amounts.length.toFloat

/-! ## 2. The stages -/

/-- The data with one entry replaced or added. -/
def withEntry (data : Bag) (name : String) (v : Value) : Bag :=
  { entries := data.entries.insert name v }

/-- Reads the amounts as numbers. -/
def parseAmounts (contract : Contract) : Stage where
  label := "ParseAmounts"
  contract := contract
  transform data := do
    let xs ← numbers (.bag data) "amounts"
    return withEntry data "amounts" (← numberList xs)

/-- Standardises the amounts. -/
def standardize (contract : Contract) : Stage where
  label := "Standardize"
  contract := contract
  fit := some fun data _ => do
    let xs ← numbers data "amounts"
    Script.put "mean" (.number (mean xs))
    Script.put "std" (.number (deviation xs))
  transform data := do
    let m ← Script.get "mean"
    let d ← Script.get "std"
    let xs ← numbers (.bag data) "amounts"
    return withEntry data "amounts" (← numberList (xs.map fun x => (x - numeric m) / numeric d))

/-- The class of the model that scoring keeps. -/
def modelClass : String := "ThresholdModel"

/-- The threshold of a model. -/
def threshold (g : Graph) (model : Value) : Option Float :=
  match model with
  | .node id =>
    match g.node id with
    | .object (.ofClass name) entries =>
      if name = modelClass then (entries.find? "threshold").map numeric else none
    | _ => none
  | _ => none

/-- Scores the customer by the amounts, and drops them. -/
def score (contract : Contract) : Stage where
  label := "Score"
  contract := contract
  fit := some fun _ parameters => do
    let t ← Script.ask fun g => parameters.part g "threshold"
    let model ← Script.new (.object (.ofClass modelClass) [("threshold", .number (numeric t))])
    Script.put "model" model
  transform data := do
    let model ← Script.get "model"
    match ← Script.ask fun g => .ok (threshold g model) with
    | none => .fail (.failed "score: model state has the wrong type")
    | some limit =>
      let r := risk (← numbers (.bag data) "amounts")
      let customer ← Script.ask fun g => data.part g "customer"
      let parts ← Script.ask fun g => if customer.isObject then g.partsOf customer else .ok []
      let customer ← Script.new (.object .plain (Entries.insert parts "risk" (.number r)))
      let rest := data.remove "amounts"
      return withEntry (withEntry rest "customer" customer) "churn" (.bool (limit < r))

/-! ## 3. The run -/

/-- The stages under the contracts of a chain; `none` if one is not declared. -/
def members? (c : Chain) : Option (List Member) := do
  let contracts := namedContracts c.links
  let parse ← Entries.find? contracts "parse"
  let standard ← Entries.find? contracts "standardize"
  let scoring ← Entries.find? contracts "score"
  some [{ name := "parse", stage := parseAmounts parse },
    { name := "standardize", stage := standardize standard },
    { name := "score", stage := score scoring }]

/-- A payload: amounts as texts, and a customer. -/
def payload (amounts : List String) (id plan : String) : Json :=
  .object [("amounts", .list (amounts.map .text)),
    ("customer", .object [("id", .text id), ("plan", .text plan)])]

/-- The parameters of the pipeline. -/
def parameters : Json := .object [("score", .object [("threshold", .number 0.4)])]

/-- Adds a JSON value to the containers of a session. -/
def load (j : Json) : Run Value := Run.obtain fun g => .ok (g.addJson j)

/-- Fits the pipeline, and scores one payload; the result is what is shown. -/
def scoreOne (options : RunOptions) : Run Json := do
  let training ← load (payload ["12.5", "40", "3.25", "18"] "c-1" "basic")
  let given ← load parameters
  let _ ← Run.fitChain options training given
  let fresh ← load (payload ["5", "60"] "c-2" "pro")
  let scored ← Run.transformChain options fresh
  let g ← Run.graph
  Run.lift do
    let entries ← Graph.jsonEntries (fun v => g.json? v) scored.entries
    .ok (.object entries)

/-- The lines that a log puts on the standard output. -/
def outputLines (elapsed : String) (log : List LogLine) : List String :=
  (log.filter fun l => !l.isWarning).map (LogLine.render elapsed)

/-- **The whole program**: `content` is the declaration that was read, if one was named, and
    `elapsed` the text of measured times. -/
def run (elapsed : String) (env : Environment) (content : Option (Except ReadError String)) :
    Response :=
  let compiled : Option Compiled :=
    match content with
    | some (.ok text) => (Compiled.ofText text).toOption
    | _ => none
  match compiled.bind fun c => members? c.chain with
  | none => { exit := 1 }
  | some members =>
    let options : RunOptions := { settings := LogSettings.ofEnvironment env.find? }
    let (result, session) := (scoreOne options).run { members := members }
    let lines := outputLines elapsed session.log
    match result with
    | .ok j => { output := lines ++ ["\n[Scored payload]", j.indented 0] }
    | .error _ => { exit := 1, output := lines }

/-- The program on a snapshot of its directory. -/
def runIn (elapsed : String) (env : Environment) (d : Directory) : Response :=
  let env := env.inDirectory (d.read ".env")
  run elapsed env ((env.find? "CHAIN_FILE").map d.read)

end SchemaFlow.Churn
