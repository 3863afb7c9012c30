import SchemaFlow.Contract.Check
import SchemaFlow.Execution.Log
import SchemaFlow.Value.Bag

/-!
# Stages that run

A stage has a contract and logic of its own: fitting sets its state, transforming edits the data.
The logic is a `Script`, which can do no more than a stage may: it can fail, read and write its own
state, and make new values. A `Session` is all that changes while stages run.

* `Session.setState` and `Session.getState` are the two ways to a stage's state. Writing a state
  that the contract does not declare fails, and so does reading one that is not set. Logic is told
  of the failure and may go on.
* `Script.run` executes a script for one member of a session.
-/

namespace SchemaFlow

/-! ## 1. Errors -/

/-- What can end a run. -/
inductive RunError
  | fault (f : Fault)
  /-- a guard that found violations -/
  | refused (phase : String) (violations : List Violation)
  /-- a state that is read before it is set -/
  | notFitted (stage key : String)
  /-- a failure of stage logic -/
  | failed (message : String)

/-- The wording of an error. -/
def RunError.message : RunError → String
  | fault f => f.message
  | refused phase violations =>
    let lines := violations.map fun v => "- " ++ v.message
    s!"{phase} refused: {violations.length} contract violation(s)\n" ++ "\n".intercalate lines
  | notFitted stage key => s!"{stage} has not been fit: state '{key}' is unset"
  | failed message => message

/-! ## 2. Scripts and stages -/

/-- A way to make a value among the containers there are. The value may bring containers of its own;
    a fault brings none. -/
abbrev Supply := Graph → Except Fault (Graph × Value)

/-- The logic of a stage, up to a result. What is answered about a state may be an error. -/
inductive Script (α : Type) where
  | done (result : α)
  | fail (e : RunError)
  | setState (key : String) (v : Value) (next : Except RunError Unit → Script α)
  | getState (key : String) (next : Except RunError Value → Script α)
  /-- looks at the containers there are -/
  | look (next : Graph → Script α)
  /-- makes a value -/
  | make (supply : Supply) (next : Value → Script α)

namespace Script

variable {α β : Type}

/-- Goes on with the result of a script. -/
def bind : Script α → (α → Script β) → Script β
  | done a, f => f a
  | fail e, _ => fail e
  | setState k v next, f => setState k v fun answer => (next answer).bind f
  | getState k next, f => getState k fun answer => (next answer).bind f
  | look next, f => look fun g => (next g).bind f
  | make supply next, f => make supply fun v => (next v).bind f

instance : Monad Script where
  pure := done
  bind := bind

/-- Takes an answer over, and fails where it is an error. -/
def ofAnswer : Except RunError α → Script α
  | .ok a => done a
  | .error e => fail e

/-- A computation on the containers there are. -/
def ask (f : Graph → Except Fault α) : Script α :=
  look fun g => ofAnswer ((f g).mapError .fault)

/-- Sets a state. -/
def put (key : String) (v : Value) : Script Unit := setState key v ofAnswer

/-- Reads a state. -/
def get (key : String) : Script Value := getState key ofAnswer

/-- Makes a value. -/
def obtain (supply : Supply) : Script Value := make supply done

/-- Makes a container. -/
def new (n : Node) : Script Value := obtain fun g => .ok (g.add n)

end Script

/-- A stage: what it is called, its contract, and its logic. A stage without a `fit` has nothing to
    do when it is fitted. -/
structure Stage where
  label : String
  contract : Contract
  fit : Option ((data parameters : Source) → Script Unit) := none
  transform : Bag → Script Bag

/-- A stage in a session, under the name that it has in a chain, with its state. -/
structure Member where
  name : String
  stage : Stage
  state : Entries Value := []

namespace Member

/-- A stage is fitted when all state that its contract declares is set. -/
def isFitted (m : Member) : Bool := m.stage.contract.fittedState.names.all m.state.has

end Member

/-! ## 3. Sessions -/

/-- All that changes while stages run. `calls` lists the logic that was entered, by the position of
    its stage. -/
structure Session where
  graph : Graph := {}
  members : List Member := []
  log : List LogLine := []
  calls : List (Nat × Phase) := []

namespace Session

/-- Writes lines to the log. -/
def tell (s : Session) (lines : List LogLine) : Session := { s with log := s.log ++ lines }

/-- Records that the logic of a stage is entered. -/
def record (s : Session) (i : Nat) (phase : Phase) : Session :=
  { s with calls := s.calls ++ [(i, phase)] }

/-- Sets a state of the member at a position. -/
def setState (s : Session) (i : Nat) (key : String) (v : Value) :
    Except RunError Unit × Session :=
  match s.members[i]? with
  | none => (.error (.fault .illTyped), s)
  | some m =>
    if m.stage.contract.fittedState.has key then
      (.ok (), { s with members := s.members.set i { m with state := m.state.put key v } })
    else
      (.error (.failed s!"{m.stage.label}: state '{key}' is not declared in fittedState"), s)

/-- Reads a state of the member at a position. -/
def getState (s : Session) (i : Nat) (key : String) : Except RunError Value :=
  match s.members[i]? with
  | none => .error (.fault .illTyped)
  | some m =>
    match m.state.find? key with
    | some v => .ok v
    | none => .error (.notFitted m.stage.label key)

end Session

/-- Executes a script for the member at a position. What it changed before an error stays changed. -/
def Script.run {α : Type} (i : Nat) : Script α → Session → Except RunError α × Session
  | done a, s => (.ok a, s)
  | fail e, s => (.error e, s)
  | setState key v next, s =>
    let (answer, s) := s.setState i key v
    (next answer).run i s
  | getState key next, s => (next (s.getState i key)).run i s
  | look next, s => (next s.graph).run i s
  | make supply next, s =>
    match supply s.graph with
    | .ok (g, v) => (next v).run i { s with graph := g }
    | .error e => (.error (.fault e), s)

end SchemaFlow
