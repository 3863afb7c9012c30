import SchemaFlow.Execution.Stage

/-!
# Runs

A `Run` is what happens around the logic of stages: it looks at the session, writes to the log, and
enters the logic of one member after the other. Only that logic changes the state of a member.

* `Run.run` executes it in a session.
-/

namespace SchemaFlow

/-- A course of action in a session, up to a result. -/
inductive Run (α : Type) where
  | done (result : α)
  | stop (e : RunError)
  /-- looks at the session -/
  | look (next : Session → Run α)
  /-- writes to the log -/
  | report (lines : List LogLine) (next : Run α)
  /-- makes a value -/
  | make (supply : Supply) (next : Value → Run α)
  /-- enters the fit of the member at a position -/
  | enterFit (i : Nat) (logic : Script Unit) (next : Run α)
  /-- enters the transform of the member at a position -/
  | enterTransform (i : Nat) (logic : Script Bag) (next : Bag → Run α)

namespace Run

variable {α β : Type}

/-- Goes on with the result of a run. -/
def bind : Run α → (α → Run β) → Run β
  | done a, f => f a
  | stop e, _ => stop e
  | look next, f => look fun s => (next s).bind f
  | report lines next, f => report lines (next.bind f)
  | make supply next, f => make supply fun v => (next v).bind f
  | enterFit i logic next, f => enterFit i logic (next.bind f)
  | enterTransform i logic next, f => enterTransform i logic fun out => (next out).bind f

instance : Monad Run where
  pure := done
  bind := bind

/-- **Executes a run in a session.** What it changed before an error stays changed. -/
def run : Run α → StateM Session (Except RunError α)
  | done a => fun s => (.ok a, s)
  | stop e => fun s => (.error e, s)
  | look next => fun s => (next s).run s
  | report lines next => fun s => next.run (s.tell lines)
  | make supply next => fun s =>
    match supply s.graph with
    | .ok (g, v) => (next v).run { s with graph := g }
    | .error e => (.error (.fault e), s)
  | enterFit i logic next => fun s =>
    match logic.run i (s.record i .fit) with
    | (.ok (), s) => next.run s
    | (.error e, s) => (.error e, s)
  | enterTransform i logic next => fun s =>
    match logic.run i (s.record i .transform) with
    | (.ok out, s) => (next out).run s
    | (.error e, s) => (.error e, s)

/-- Takes over a result that may be a fault. -/
def lift : Except Fault α → Run α
  | .ok a => done a
  | .error e => stop (.fault e)

/-- Writes lines to the log. -/
def tell (lines : List LogLine) : Run Unit := report lines (done ())

/-- The session as it is. -/
def session : Run Session := look done

/-- The containers there are. -/
def graph : Run Graph := look fun s => done s.graph

/-- Makes a value. -/
def obtain (supply : Supply) : Run Value := make supply done

/-- The member at a position; there is nothing to run where there is none. -/
def memberAt (i : Nat) : Run Member :=
  look fun s =>
    match s.members[i]? with
    | some m => done m
    | none => stop (.fault .illTyped)

end Run

end SchemaFlow
