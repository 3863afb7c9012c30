import SchemaFlow.Observation.Unchecked
import SchemaFlow.Production.Effect

/-!
# Productions that were never checked

Operations can be applied, composed and shown as they were given, without the checks that a contract
makes. What has no meaning as an operation has no effect but that the name goes.

* `Graph.applyGiven` is the effect on one name, `Graph.effectOfGiven` that on a table.
* `Graph.composeGiven` is one production with the effect of two. Only what it builds is checked.
* `Graph.shownProduction` reads a production for showing it.
-/

namespace SchemaFlow

namespace Graph

/-! ## 1. Effect -/

/-- Stores what is left of each field, in order of arrival; `step` is the effect on one. -/
def editGiven (step : Value → Value → Except Fault Value) :
    Entries Value → Entries Value → Except Fault (Entries Value)
  | [], table => .ok table
  | (name, p) :: rest, table => do
    let next ← step ((table.find? name).getD .absent) p
    editGiven step rest (if next.isAbsent then table.erase name else table.put name next)

/-- The effect of an unchecked production on a value, inside the objects of `visiting`: absent when
    the name is gone. -/
def applyGivenAt (g : Graph) (visiting : List Nat) (current production : Value) :
    Except Fault Value :=
  match production with
  | .type t => .ok (.type t)
  | .absent | .null => .error .illTyped
  | .node id =>
    if _hnew : id ∈ visiting then .error .endless
    else if _hsize : id < g.size then do
      let op ← g.part (.node id) "op"
      match op with
      | .text "set" => g.part (.node id) "type"
      | .text "modify" => do
        let before ← g.fieldsOf current
        let fields ← g.part (.node id) "fields"
        let entries ← g.partsOf fields
        let table ← editGiven (fun w p => g.applyGivenAt (id :: visiting) w p) entries
          (before.map fun (k, t) => (k, .type t))
        let f ← fillSchema "record" {} (Entries.ofList table)
        .ok (.type (.ofFilling f))
      | _ => .ok .absent
    else .ok .absent
  | _ => .ok .absent
termination_by g.unvisited visiting
decreasing_by exact unvisited_cons_lt _hsize _hnew

/-- The effect of an unchecked production on a value. -/
def applyGiven (g : Graph) (current production : Value) : Except Fault Value :=
  g.applyGivenAt [] current production

/-- Folds unchecked productions into a table. A fault leaves the table as it was changed so far,
    so the table is the second part of every outcome. -/
def effectOfGiven (g : Graph) :
    Entries Value → Entries Value → Option Fault × Entries Value
  | [], table => (none, table)
  | (name, p) :: rest, table =>
    match g.applyGiven ((table.find? name).getD .absent) p with
    | .error e => (some e, table)
    | .ok next =>
      effectOfGiven g rest (if next.isAbsent then table.erase name else table.put name next)

/-! ## 2. Composition -/

/-- The word that tells operations apart; a bare type is set. -/
def operationWord (g : Graph) (v : Value) : Except Fault Value :=
  match v with
  | .type _ => .ok (.text "set")
  | v => g.part v "op"

/-- The type that an operation sets. -/
def typeSet (g : Graph) (v : Value) : Except Fault Value :=
  match v with
  | .type _ => .ok v
  | v => g.part v "type"

/-- The entries under the fields of a modification. -/
def fieldsGiven (g : Graph) (v : Value) : Except Fault (Entries Value) := do
  let fields ← g.part v "fields"
  g.partsOf fields

/-- Composes fields one by one onto the earlier ones, which keep their order of arrival; `step`
    composes two productions. -/
def composeGivenFields (step : Value → Value → Graph → Except Fault (Graph × Value)) :
    Entries Value → Entries Value → Graph → Except Fault (Graph × Entries Value)
  | [], before, h => .ok (h, before)
  | (name, p) :: rest, before, h => do
    let (h, q) ← step ((before.find? name).getD .absent) p h
    composeGivenFields step rest (before.put name q) h

/-- Composes two productions, the earlier one possibly absent, in the graph `h`, which has grown out
    of `g`; `later` is an object of `g`. -/
def composeGivenAt (g : Graph) (visiting : List Nat) (earlier later : Value) (h : Graph) :
    Except Fault (Graph × Value) :=
  if earlier.isAbsent then .ok (h, later)
  else
    match later with
    | .absent | .null => .error .illTyped
    | .node id =>
      if _hnew : id ∈ visiting then .error .endless
      else if _hsize : id < g.size then do
        match ← g.operationWord later with
        | .text "modify" =>
          match ← h.operationWord earlier with
          | .text "modify" => do
            let before ← h.fieldsGiven earlier
            let after ← g.fieldsGiven later
            let (h, fields) ← composeGivenFields
              (fun e l h => g.composeGivenAt (id :: visiting) e l h) after before h
            let (h, table) := h.add (.object .plain (Entries.ofList fields))
            h.modifyOf table
          | .text "set" => do
            let t ← h.typeSet earlier
            let result ← h.applyGiven t later
            h.setOf result
          | _ => do
            let result ← h.applyGiven .absent later
            h.setOf result
        | _ => .ok (h, later)
      else .ok (h, later)
    | later => .ok (h, later)
termination_by g.unvisited visiting
decreasing_by exact unvisited_cons_lt _hsize _hnew

/-- **One production with the effect of two**, the earlier one possibly absent. -/
def composeGiven (g : Graph) (earlier later : Value) : Except Fault (Graph × Value) :=
  g.composeGivenAt [] earlier later g

/-! ## 3. Showing -/

/-- Reads the productions under fields; `read` reads one. -/
def shownFields (read : Value → Except Fault Production) :
    Entries Value → Except Fault Produced
  | [] => .ok []
  | (name, v) :: rest => do
    let p ← read v
    let ps ← shownFields read rest
    .ok ((name, p) :: ps)

/-- Reads a production inside the objects of `visiting`. -/
def shownProductionAt (g : Graph) (visiting : List Nat) (v : Value) : Except Fault Production :=
  match v with
  | .type t => .ok (.type t)
  | .drop => .ok .drop
  | .node id =>
    if _hnew : id ∈ visiting then .error .endless
    else if _hsize : id < g.size then do
      match ← g.part v "op" with
      | .text "set" =>
        match g.typeLike? (← g.part v "type") with
        | some t => .ok (.set t)
        | none => .error .illTyped
      | .text "drop" => .ok .drop
      | .text "modify" => do
        let entries ← g.fieldsGiven v
        let ps ← shownFields (fun w => g.shownProductionAt (id :: visiting) w) entries
        .ok (.modify ps)
      | _ => .error .illTyped
    else .error .illTyped
  | _ => .error .illTyped
termination_by g.unvisited visiting
decreasing_by exact unvisited_cons_lt _hsize _hnew

/-- Reads a production as it was given, to show it. -/
def shownProduction (g : Graph) (v : Value) : Except Fault Production := g.shownProductionAt [] v

end Graph

end SchemaFlow
