import SchemaFlow.Chain.Basic
import SchemaFlow.Contract.Check
import SchemaFlow.Production.Effect
import SchemaFlow.Value.Bag

/-!
# Passes through a chain

A pass checks the links of a chain from left to right against the data as the links before them
leave it, and collects every violation. Links inside nested chains are checked in the same way, on
the same data, under names such as `outer/inner`.

* A fit pass checks the fit of each stage: against its parameters where parameters are given, and
  against its declared input only where they are not.
* A transform pass checks the transform of each stage; a stage whose name is not in the fitted set
  counts as not fitted, and where there is no such set every stage counts as fitted.
-/

namespace SchemaFlow

/-- The result of a pass: the violations, the stages whose check was clean, and the data behind the
    last link. -/
structure Outcome where
  violations : List Violation := []
  fitted : List String := []
  data : Entries Value := []
deriving Inhabited

/-- What a pass checks, at every level of nesting. -/
structure Pass where
  phase : Phase
  fitted : Option (List String) := none

/-! ## 1. Parameters -/

/-- Parameters for names that are no links. -/
def unknownStages (g : Graph) (names : List String) (lead : String) :
    Option Source → List Violation
  | none => []
  | some given =>
    ((given.names g).filter fun name => !names.contains name).map fun name =>
      ⟨some (lead ++ name), .unknownStage names⟩

/-- The parameters of one stage; an empty table where none are given. -/
def stageParameters (g : Graph) (given : Source) (name : String) : Except Fault Value := do
  match ← given.part g name with
  | .absent | .null => .ok .emptyTable
  | v => .ok v

/-- Hands the parameters of a nested chain on to its links, and reports what is no table. -/
def handOn (g : Graph) (stage : String) :
    List (Value × Value) → Bag → List Violation → Except Fault (Bag × List Violation)
  | [], b, found => .ok (b, found)
  | (key, v) :: rest, b, found =>
    if g.isPayload v then do
      match ← g.nameOfKey? key with
      | some name => do
        let b ← b.store g name v
        handOn g stage rest b found
      | none => handOn g stage rest b found
    else do
      let name ← g.addedText key
      handOn g stage rest b
        (found ++ [⟨some (stage ++ separator.toString ++ name), .parametersNotATable⟩])

/-- The parameters of a nested chain. -/
def nestedParameters (g : Graph) (stage name : String) :
    Option Source → Except Fault (Option Source × List Violation)
  | none => .ok (none, [])
  | some given => do
    match ← given.part g name with
    | .absent => .ok (some (.bag {}), [])
    | v => do
      let entries ← g.parameterEntries v
      let (b, found) ← handOn g stage entries {} []
      .ok (some (.bag b), found)

/-! ## 2. The pass -/

/-- The violations of one stage. -/
def stageViolations (g : Graph) (pass : Pass) (c : Contract) (stage name : String)
    (parameters : Option Source) (data : Entries Value) : Except Fault (List Violation) :=
  match pass.phase with
  | .fit =>
    match parameters with
    | some given => do
      let own ← stageParameters g given name
      c.checkFit g (some stage) data own
    | none => c.checkStatic g (some stage) data .fit
  | .transform =>
    let fitted := match pass.fitted with
      | some names => names.contains stage
      | none => true
    c.checkTransform g (some stage) data fitted

mutual

/-- Checks one link. `lead` stands before its name; the data of the outcome is what the link leaves
    behind. -/
def passLink (g : Graph) (pass : Pass) (lead : String) (parameters : Option Source)
    (name : String) : Link → Entries Value → Except Fault Outcome
  | .stage c, data => do
    let stage := lead ++ name
    let found ← stageViolations g pass c stage name parameters data
    let data ← effectOn g c.produced data
    let clean := if pass.phase = .fit && found.isEmpty then [stage] else []
    .ok { violations := found, fitted := clean, data := data }
  | .chain links, data => do
    let stage := lead ++ name
    let inside := stage ++ separator.toString
    let (given, found) ← nestedParameters g stage name parameters
    let unknown := unknownStages g (links.map Prod.fst) inside given
    let sub ← passLinks g pass inside given links data
    .ok { sub with violations := found ++ unknown ++ sub.violations }

/-- Checks links from left to right. -/
def passLinks (g : Graph) (pass : Pass) (lead : String) (parameters : Option Source) :
    List (String × Link) → Entries Value → Except Fault Outcome
  | [], data => .ok { data := data }
  | (name, link) :: rest, data => do
    let first ← passLink g pass lead parameters name link data
    let later ← passLinks g pass lead parameters rest first.data
    .ok { later with
      violations := first.violations ++ later.violations
      fitted := first.fitted ++ later.fitted }

end

namespace Chain

/-- A pass through a whole chain. -/
def pass (g : Graph) (c : Chain) (p : Pass) (parameters : Option Source) (data : Entries Value) :
    Except Fault Outcome := do
  let r ← passLinks g p "" parameters c.links data
  .ok { r with violations := unknownStages g c.names "" parameters ++ r.violations }

/-- Parameters by stage, read from a value; an absent value is an empty table, and any other that
    is not given means that parameters are not checked. -/
def parametersOf (v : Value) : Option Source :=
  if v.isAbsent then some (.bag {}) else if v.isGiven then some (.value v) else none

/-- The names of fitted stages that a value lists: the texts among its items, the characters of a
    text. What is not there lists none, and what has no items is a fault. -/
def fittedNames (g : Graph) (v : Value) : Except Fault (List String) :=
  match v with
  | .absent | .null | .buffer _ _ | .foreign "Set" | .foreign "String" => .ok []
  | .text s => .ok (s.toList.map Char.toString)
  | v =>
    match g.items? v with
    | some items => .ok (items.filterMap Graph.keyText?)
    | none => if (g.mapEntries? v).isSome then .ok [] else .error .illTyped

/-- The violations of fitting the chain on `data`. -/
def checkFit (g : Graph) (c : Chain) (data : Entries Value) (parameters : Option Source) :
    Except Fault (List Violation) := do
  .ok (← c.pass g { phase := .fit } parameters data).violations

/-- The violations of transforming `data` when the stages named in `fitted` are fitted. -/
def checkTransform (g : Graph) (c : Chain) (data : Entries Value) (fitted : List String) :
    Except Fault (List Violation) := do
  .ok (← c.pass g { phase := .transform, fitted := some fitted } none data).violations

/-- The violations of a phase against declared types, every stage counting as fitted. -/
def checkStatic (g : Graph) (c : Chain) (data : Entries Value) (phase : Phase) :
    Except Fault (List Violation) := do
  .ok (← c.pass g { phase := phase } none data).violations

/-- What a fit pass and a transform pass after it find. -/
structure Report where
  fit : List Violation
  transform : List Violation
  fitted : List String

/-- A fit pass, then a transform pass in which the stages count as fitted whose fit was clean. -/
def check (g : Graph) (c : Chain) (data : Entries Value) (parameters : Option Source) :
    Except Fault Report := do
  let fit ← c.pass g { phase := .fit } parameters data
  let transform ← c.pass g { phase := .transform, fitted := some fit.fitted } none data
  .ok ⟨fit.violations, transform.violations, fit.fitted⟩

end Chain

end SchemaFlow
