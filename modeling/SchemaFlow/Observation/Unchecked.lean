import SchemaFlow.Observation

/-!
# Types that were never checked

A hint, and either side of a comparison, may be given as any value. Such a value passes for a type
by the parts that it has: `kind` says which sort, and the parts that a type of that sort has are
read where they are needed. A value of no sort demands nothing.

* `Graph.typeLike?` is the type that a value spells out, if it does so to the end.
* `Graph.diagnoseGiven` compares two values as types; types are compared as types are.
* `Graph.observeGiven` observes under any hint, under a type as `Graph.observe` does. It yields types
  and nothing else, and so refuses to build one where only a part of the hint could stand.
-/

namespace SchemaFlow

/-- Whether two values are the very same: primitive ones by content, containers by identity. -/
def Value.isSame : Value → Value → Bool
  | .number x, .number y => x == y
  | v, w => v.sameKey w

namespace Graph

/-! ## 1. Reading -/

/-- The scalar kind that a value names. -/
def kindLike? : Value → Option ScalarKind
  | .text s => ScalarKind.ofName? s
  | _ => none

/-- Reads the types under names; `read` reads one. -/
def fieldsLike? (read : Value → Option TypeSpec) : Entries Value → Option Schema
  | [] => some []
  | (name, v) :: rest => do
    let t ← read v
    let ts ← fieldsLike? read rest
    some ((name, t) :: ts)

/-- The type that a value spells out, inside the containers of `visiting`. -/
def typeLikeAt (g : Graph) (visiting : List Nat) (v : Value) : Option TypeSpec :=
  match v with
  | .type t => some t
  | .node id =>
    if _hnew : id ∈ visiting then none
    else if _hsize : id < g.size then
      let part (name : String) : Option Value := (g.part (.node id) name).toOption
      match part "kind" with
      | some (.text "scalar") => do
        let k ← (part "scalar").bind kindLike?
        some (.scalar k)
      | some (.text "sequence") => do
        let e ← part "element"
        let t ← g.typeLikeAt (id :: visiting) e
        some (.sequence t)
      | some (.text "shapedArray") => do
        let k ← (part "element").bind kindLike?
        let items ← (part "dimensions").bind g.items?
        let ds ← items.mapM dimensionOf?
        some (.array k ds)
      | some (.text "mapping") => do
        let k ← (part "key").bind kindLike?
        let w ← part "value"
        let t ← g.typeLikeAt (id :: visiting) w
        some (.mapping k t)
      | some (.text "opaque") =>
        match part "label" with
        | some (.text label) => some (.handle label)
        | _ => none
      | some (.text "record") => do
        let fields ← part "fields"
        let entries ← (g.partsOf fields).toOption
        let ts ← fieldsLike? (fun w => g.typeLikeAt (id :: visiting) w) entries
        some (.record ts none)
      | _ => none
    else none
  | _ => none
termination_by g.unvisited visiting
decreasing_by all_goals exact unvisited_cons_lt _hsize _hnew

/-- **The type that a value spells out**, if there is one. -/
def typeLike? (g : Graph) (v : Value) : Option TypeSpec := g.typeLikeAt [] v

/-! ## 2. Comparison -/

/-- Whether a value says that it is of a sort. -/
def isSort (g : Graph) (v : Value) (sort : String) : Except Fault Bool := do
  match ← g.part v "kind" with
  | .text word => .ok (word = sort)
  | _ => .ok false

/-- Whether two values agree in a part. -/
def agreeIn (g : Graph) (name : String) (declared observed : Value) : Except Fault Bool := do
  let d ← g.part declared name
  let o ← g.part observed name
  .ok (d.isSame o)

/-- Whether a value has a part of its own under a name. -/
def hasOwn (g : Graph) (v : Value) (name : String) : Except Fault Bool :=
  match v with
  | .absent | .null => .error .illTyped
  | v =>
    match g.ownPart v name with
    | .absent | .hollow => .ok false
    | _ => .ok true

/-- Whether given dimensions are met by those of `observed`, from the one at `index` on. -/
def dimensionsMet (g : Graph) (observed : Value) (index : Nat) : List Value → Except Fault Bool
  | [] => .ok true
  | .null :: rest | .hole :: rest => dimensionsMet g observed (index + 1) rest
  | d :: rest => do
    let o ← g.part observed (toString index)
    if d.isSame o then dimensionsMet g observed (index + 1) rest else .ok false

/-- Whether given dimensions are met, in the same rank. -/
def dimensionsFitGiven (g : Graph) (declared observed : Value) : Except Fault Bool := do
  if !(← g.agreeIn "length" declared observed) then .ok false
  else
    match g.items? declared with
    | some items => g.dimensionsMet observed 0 items
    | none => .error .illTyped

/-- The first disagreement among declared fields; `compare` compares two values. -/
def diagnoseGivenFields (g : Graph) (compare : Value → Value → Except Fault (Option Mismatch))
    (observed : Value) : Entries Value → Except Fault (Option Mismatch)
  | [] => .ok none
  | (name, d) :: rest => do
    if !(← g.hasOwn observed name) then .ok (some .type)
    else
      let o ← g.part observed name
      match ← compare d o with
      | some m => .ok (some m)
      | none => diagnoseGivenFields g compare observed rest

/-- Compares two values as types, down to a depth. -/
def diagnoseTo (g : Graph) : Nat → (declared observed : Value) → Except Fault (Option Mismatch)
  | 0, _, _ => .error .endless
  | depth + 1, declared, observed => do
    match ← g.part declared "kind" with
    | .text "scalar" =>
      if !(← g.isSort observed "scalar") then .ok (some .type)
      else if ← g.agreeIn "scalar" declared observed then .ok none
      else .ok (some .type)
    | .text "sequence" =>
      if !(← g.isSort observed "sequence") then .ok (some .type)
      else
        let d ← g.part declared "element"
        let o ← g.part observed "element"
        diagnoseTo g depth d o
    | .text "shapedArray" =>
      if !(← g.isSort observed "shapedArray") then .ok (some .type)
      else if !(← g.agreeIn "element" declared observed) then .ok (some .type)
      else
        let d ← g.part declared "dimensions"
        let o ← g.part observed "dimensions"
        if ← g.dimensionsFitGiven d o then .ok none else .ok (some .shape)
    | .text "mapping" =>
      if !(← g.isSort observed "mapping") then .ok (some .type)
      else if !(← g.agreeIn "key" declared observed) then .ok (some .type)
      else
        let d ← g.part declared "value"
        let o ← g.part observed "value"
        diagnoseTo g depth d o
    | .text "opaque" =>
      if !(← g.isSort observed "opaque") then .ok (some .type)
      else if ← g.agreeIn "label" declared observed then .ok none
      else .ok (some .type)
    | .text "record" =>
      if !(← g.isSort observed "record") then .ok (some .type)
      else
        let d ← g.part declared "fields"
        let o ← g.part observed "fields"
        let entries ← g.partsOf d
        g.diagnoseGivenFields (diagnoseTo g depth) o entries
    | _ => .ok none

/-- The depth at which a comparison of values that contain themselves is given up. -/
def deepest : Nat := 10000

/-- **The disagreement of two values as types**, if they disagree. -/
def diagnoseGiven (g : Graph) (declared observed : Value) : Except Fault (Option Mismatch) :=
  match declared, observed with
  | .type d, .type o => .ok (d.diagnose o)
  | _, _ => g.diagnoseTo deepest declared observed

/-- Types are compared as types are. -/
@[simp] theorem diagnoseGiven_type (g : Graph) (d o : TypeSpec) :
    g.diagnoseGiven (.type d) (.type o) = .ok (d.diagnose o) := rfl

/-! ## 3. Observation -/

/-- What a hint says of the parts of a container, if it is of the container's sort. -/
def hintPart (g : Graph) (hint : Value) (sort name : String) : Except Fault Value := do
  if ← g.isSort hint sort then g.part hint name else .ok .absent

section Containers

variable (obs : Value → Value → Except Fault TypeSpec)

/-- The element type of a container; `none` where only the hint could stand for it. `first` is what
    the elements before these exhibited first. -/
def elementTypeGiven (g : Graph) (hint : Value) :
    Option TypeSpec → List Value → Except Fault (Option TypeSpec)
  | some t, [] => .ok (some t)
  | none, [] =>
    match hint with
    | .absent | .null => .ok (some (.handle "unknown"))
    | hint => .ok hint.type?
  | first, v :: rest => do
    let t ← obs hint v
    if !hint.isGiven then .ok (some t)
    else if (← g.diagnoseGiven hint (.type t)).isSome then .ok (some t)
    else elementTypeGiven g hint (first.or (some t)) rest

/-- A list exhibits a sequence. -/
def listTypeGiven (g : Graph) (hint : Value) (items : List Value) : Except Fault TypeSpec := do
  let e ← g.hintPart hint "sequence" "element"
  match ← elementTypeGiven obs g e none items with
  | some t => .ok (.sequence t)
  | none => refuseHere (.notAType "sequence element")

/-- Observes the present entries of a plain object under the fields of a hint. -/
def observeFieldsGiven (g : Graph) (fields : Value) :
    Filling TypeSpec → Entries Value → Except Fault (Filling TypeSpec)
  | f, [] => .ok f
  | f, (name, v) :: rest =>
    if v.isAbsent then observeFieldsGiven g fields f rest
    else do
      let hint ← g.part fields name
      let t ← obs hint v
      match f.store t.partNames name t with
      | some f => observeFieldsGiven g fields f rest
      | none => .error (.sealed name)

/-- A plain object exhibits a record under a record, else a mapping of texts. -/
def tableTypeGiven (g : Graph) (hint : Value) (entries : Entries Value) :
    Except Fault TypeSpec := do
  if ← g.isSort hint "record" then
    let fields ← g.part hint "fields"
    let f ← observeFieldsGiven obs g fields {} entries
    if f.entries.has "" then refuse "record" .emptyKey else .ok (.record f.entries none)
  else
    let e ← g.hintPart hint "mapping" "value"
    match ← elementTypeGiven obs g e none entries.contents with
    | some t => .ok (.mapping .string t)
    | none => refuseHere (.notAType "mapping value")

/-- The key kind of a map: the only kind among its keys, else the one that the hint names, else
    texts. -/
def keyKindGiven (g : Graph) (hint : Value) : List ScalarKind → Except Fault ScalarKind
  | [kind] => .ok kind
  | _ => do
    if ← g.isSort hint "mapping" then
      let key ← g.part hint "key"
      g.kindOf key "mapping key"
    else .ok .string

/-- A map exhibits a mapping. -/
def mapTypeGiven (g : Graph) (keyObs : Value → Except Fault TypeSpec) (hint : Value)
    (entries : List (Value × Value)) : Except Fault TypeSpec := do
  let kinds ← keyKinds keyObs [] (entries.map Prod.fst)
  let e ← g.hintPart hint "mapping" "value"
  let t ← elementTypeGiven obs g e none (entries.map Prod.snd)
  let kind ← g.keyKindGiven hint kinds
  match t with
  | some t => .ok (.mapping kind t)
  | none => refuseHere (.notAType "mapping value")

end Containers

/-- Observes a value inside the containers of `visiting`, under any hint. -/
def observeGivenAt (g : Graph) (visiting : List Nat) (hint v : Value) : Except Fault TypeSpec :=
  match hint with
  | .absent | .null => g.observeAt [] visiting .none v
  | .type t => g.observeAt [] visiting (.type t) v
  | .fieldTable fields ancestor => g.observeAt [] visiting (.table fields ancestor) v
  | hint =>
    match v with
    | .drop => tableTypeGiven (fun _ w => leafType w) g hint (g.listed .drop)
    | .node id =>
      if _hnew : id ∈ visiting then handle (g.label (.node id))
      else
        match _hnode : g.node? id with
        | none => tableTypeGiven (fun _ w => leafType w) g hint []
        | some (.list items) =>
          listTypeGiven (fun hint w => g.observeGivenAt (id :: visiting) hint w) g hint items
        | some (.map entries) =>
          mapTypeGiven (fun hint w => g.observeGivenAt (id :: visiting) hint w) g
            (fun w => g.observeAt [id] [] .none w) hint entries
        | some (.object lineage entries) =>
          match g.description? (g.describing lineage entries) with
          | some (dtype, shape) => describedType (g.label (.node id)) dtype shape
          | none =>
            match lineage with
            | .ofClass _ | .sealed (some _) => handle (g.label (.node id))
            | .plain | .bare | .sealed none =>
              tableTypeGiven (fun hint w => g.observeGivenAt (id :: visiting) hint w) g hint entries
    | v => g.observeAt [] visiting .none v
termination_by g.unvisited visiting
decreasing_by all_goals exact unvisited_cons_lt (lt_size_of_node? _hnode) _hnew

/-- **The type that a value exhibits under any hint.** -/
def observeGiven (g : Graph) (hint v : Value) : Except Fault TypeSpec :=
  g.observeGivenAt [] hint v

/-- A hint that is a type steers as a type does. -/
theorem observeGiven_type (g : Graph) (t : TypeSpec) (v : Value) :
    g.observeGiven (.type t) v = g.observe (some t) v := by
  simp [observeGiven, observeGivenAt, observe, Hint.ofType?]

end Graph

end SchemaFlow
