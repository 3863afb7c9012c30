import SchemaFlow.Proofs.Observation.Depth

/-!
# Copies

A copy of a value has containers of its own, each of them a copy of one of the value, and it may have
several copies of one container: it shares less. `origin` says for each container of the copy what
it is a copy of. An observation of a value without cycles does not see the difference.

* `nodeType_source`: a container and its copy are observed alike if what they hold is.
* `Graph.Copies.acyclic`: a copy of a value without cycles has none.
* `Graph.Copies.observeAt_eq`: a value without cycles is observed as each of its copies is.
-/

namespace SchemaFlow

/-! ## 1. What containers are copies of -/

/-- What a value is a copy of. -/
def Value.source (origin : Nat → Nat) : Value → Value
  | .node id => .node (origin id)
  | v => v

/-- What a container is a copy of. -/
def Node.source (origin : Nat → Nat) : Node → Node
  | .list items => .list (items.map (·.source origin))
  | .object lineage entries => .object lineage (entries.map fun e => (e.1, e.2.source origin))
  | .map entries => .map (entries.map fun e => (e.1.source origin, e.2.source origin))

theorem Graph.node?_of_lt_size {g : Graph} {id : Nat} (h : id < g.size) :
    g.node? id = some (g.node id) := by
  unfold Graph.node Graph.node?
  rw [Array.getElem?_eq_getElem h]
  rfl

theorem Node.held_source (origin : Nat → Nat) (n : Node) :
    (n.source origin).held = n.held.map (·.source origin) := by
  cases n <;> simp [Node.source, Node.held, Function.comp_def]

theorem Value.source_of_not_node {origin : Nat → Nat} {v : Value} (hv : ∀ id, v ≠ .node id) :
    v.source origin = v := by
  cases v with
  | node id => exact absurd rfl (hv id)
  | _ => rfl

@[simp] theorem Value.isAbsent_source (origin : Nat → Nat) (v : Value) :
    (v.source origin).isAbsent = v.isAbsent := by
  cases v <;> rfl

namespace Graph

/-- A container of a graph is a copy of the one that `origin` names. -/
def CopyAt (g : Graph) (origin : Nat → Nat) (id : Nat) : Prop :=
  g.node? (origin id) = (g.node? id).map (·.source origin)

/-- A value is a copy of another, with each of its containers. -/
structure Copies (g : Graph) (origin : Nat → Nat) (w v : Value) : Prop where
  root : w.source origin = v
  nodes : ∀ id, g.Reaches w (.node id) → g.CopyAt origin id

end Graph

/-! ## 2. Observations of copies -/

section Source

variable {obs : Hint → Value → Except Fault TypeSpec} {f keyObs : Value → Except Fault TypeSpec}
  (origin : Nat → Nat)

theorem firstMisfit_source (e : TypeSpec) : ∀ (first : Option TypeSpec) (vs : List Value),
    firstMisfit f e first (vs.map (·.source origin)) =
      firstMisfit (fun w => f (w.source origin)) e first vs
  | _, [] => rfl
  | first, v :: vs => by
      rw [List.map_cons, firstMisfit, firstMisfit]
      congr
      funext t
      rw [firstMisfit_source e _ vs]

theorem elementType_source (e : Option TypeSpec) (vs : List Value) :
    elementType f e (vs.map (·.source origin)) =
      elementType (fun w => f (w.source origin)) e vs := by
  cases e with
  | some e => exact firstMisfit_source origin e none vs
  | none => cases vs <;> rfl

theorem listType_source (hint : Hint) (items : List Value) :
    listType obs hint (items.map (·.source origin)) =
      listType (fun hint w => obs hint (w.source origin)) hint items := by
  unfold listType
  dsimp only
  rw [elementType_source]

theorem observeFields_source (fields : Hint) : ∀ (out : Filling TypeSpec) (entries : Entries Value),
    observeFields obs fields out (entries.map fun e => (e.1, e.2.source origin)) =
      observeFields (fun hint w => obs hint (w.source origin)) fields out entries
  | _, [] => rfl
  | out, (name, v) :: entries => by
      rw [List.map_cons, observeFields, observeFields, Value.isAbsent_source]
      split
      · exact observeFields_source fields out entries
      · congr
        funext t
        dsimp only
        cases out.store t.partNames name t with
        | none => rfl
        | some next => exact observeFields_source fields next entries

theorem tableType_source (hint : Hint) (entries : Entries Value) :
    tableType obs hint (entries.map fun e => (e.1, e.2.source origin)) =
      tableType (fun hint w => obs hint (w.source origin)) hint entries := by
  have hcontents : Entries.contents (entries.map fun e => (e.1, e.2.source origin)) =
      entries.contents.map (·.source origin) := by
    simp [Entries.contents]
  unfold tableType
  dsimp only
  rw [observeFields_source, hcontents, elementType_source]

theorem keyKinds_source : ∀ (kinds : List ScalarKind) (keys : List Value),
    keyKinds keyObs kinds (keys.map (·.source origin)) =
      keyKinds (fun w => keyObs (w.source origin)) kinds keys
  | _, [] => rfl
  | kinds, key :: keys => by
      rw [List.map_cons, keyKinds, keyKinds]
      congr
      funext t
      cases t <;> exact keyKinds_source _ keys

theorem mapType_source (hint : Hint) (entries : List (Value × Value)) :
    mapType obs keyObs hint (entries.map fun e => (e.1.source origin, e.2.source origin)) =
      mapType (fun hint w => obs hint (w.source origin)) (fun w => keyObs (w.source origin)) hint
        entries := by
  have hkeys : (entries.map fun e => (e.1.source origin, e.2.source origin)).map Prod.fst =
      (entries.map Prod.fst).map (·.source origin) := by
    simp
  have hvalues : (entries.map fun e => (e.1.source origin, e.2.source origin)).map Prod.snd =
      (entries.map Prod.snd).map (·.source origin) := by
    simp
  unfold mapType
  dsimp only
  rw [hkeys, hvalues, keyKinds_source, elementType_source]

end Source

/-! ## 3. Containers and their copies -/

section Containers

variable {g : Graph} {origin : Nat → Nat} {id : Nat}

theorem Graph.CopyAt.node (h : g.CopyAt origin id) :
    g.node (origin id) = (g.node id).source origin := by
  unfold Graph.node
  rw [h]
  cases g.node? id <;> rfl

theorem find?_source (entries : Entries Value) (name : String) :
    Entries.find? (entries.map fun e => (e.1, e.2.source origin)) name =
      (entries.find? name).map (·.source origin) := by
  induction entries with
  | nil => rfl
  | cons e entries ih =>
      rw [List.map_cons, Entries.find?_cons, Entries.find?_cons]
      split
      · rfl
      · exact ih

@[simp] theorem Value.isHole_source (origin : Nat → Nat) (v : Value) :
    (v.source origin).isHole = v.isHole := by
  cases v <;> rfl

theorem listedItems_source (items : List Value) :
    listedItems (items.map (·.source origin)) =
      (listedItems items).map fun e => (e.1, e.2.source origin) := by
  simp [listedItems, indexed, List.zipIdx_map, List.filter_map, Function.comp_def]

/-- A copy lists copies, under the same names. -/
theorem Graph.CopyAt.listed (h : g.CopyAt origin id) :
    g.listed (.node (origin id)) =
      (g.listed (.node id)).map fun e => (e.1, e.2.source origin) := by
  unfold Graph.listed
  dsimp only
  rw [h.node]
  cases g.node id with
  | list items => exact listedItems_source items
  | object lineage entries => rfl
  | map entries => rfl

/-- A copy has the same class. -/
theorem Graph.CopyAt.label (h : g.CopyAt origin id) :
    g.label (.node (origin id)) = g.label (.node id) := by
  have hbehind : g.behind? (.node (origin id)) = g.behind? (.node id) := by
    unfold Graph.behind?
    dsimp only
    rw [h.node]
    cases g.node id with
    | object lineage entries => cases lineage <;> rfl
    | _ => rfl
  have hown : (g.listed (.node (origin id))).has "constructor" =
      (g.listed (.node id)).has "constructor" := by
    unfold Entries.has
    rw [h.listed, find?_source, Option.isSome_map]
  unfold Graph.label Graph.line
  rw [Graph.lineFrom, Graph.lineFrom, Graph.labelAlong, Graph.labelAlong, hbehind, hown]
  all_goals simp

theorem allNumbers_source : ∀ items : List Value,
    allNumbers (items.map (·.source origin)) = allNumbers items
  | [] => rfl
  | v :: items => by
      rw [List.map_cons]
      cases v with
      | number x =>
          rw [Value.source, allNumbers, allNumbers, allNumbers_source items]
          simp
      | hole =>
          rw [Value.source, allNumbers, allNumbers, allNumbers_source items]
          simp
      | _ => rfl

theorem numbers_source {s : Value} (hs : ∀ id, s = .node id → g.CopyAt origin id) :
    (g.items? (s.source origin)).bind allNumbers = (g.items? s).bind allNumbers := by
  cases s with
  | node id =>
      have hnode := (hs id rfl).node
      unfold Graph.items? Value.source
      dsimp only
      rw [hnode]
      cases g.node id with
      | list items => exact allNumbers_source items
      | _ => rfl
  | _ => rfl

/-- What an object describes itself by: a text, and a list of numbers. -/
theorem description?_eq (entries : Entries Value) :
    g.description? entries = (entries.find? "dtype").bind fun dtype =>
      (Graph.keyText? dtype).bind fun name =>
        ((entries.find? "shape").bind fun s => (g.items? s).bind allNumbers).map fun numbers =>
          (name, numbers) := by
  unfold Graph.description?
  cases entries.find? "dtype" with
  | none => rfl
  | some dtype => cases dtype <;> cases entries.find? "shape" <;> rfl

/-- A copy describes itself as its source does. -/
theorem description_source (lineage : Lineage) {entries : Entries Value}
    (hparts : ∀ e ∈ entries, ∀ id, e.2 = .node id → g.CopyAt origin id) :
    g.description? (g.describing lineage (entries.map fun e => (e.1, e.2.source origin))) =
      g.description? (g.describing lineage entries) := by
  -- an ancestor describes the copy and its source alike
  obtain ⟨lent, hlent⟩ : ∃ lent, ∀ own, g.describing lineage own = own ++ lent := by
    rcases lineage with _ | _ | _ | (_ | ancestor)
    · exact ⟨[], fun own => (List.append_nil own).symm⟩
    · exact ⟨[], fun own => (List.append_nil own).symm⟩
    · exact ⟨[], fun own => (List.append_nil own).symm⟩
    · exact ⟨[], fun own => (List.append_nil own).symm⟩
    · exact ⟨g.listed ancestor, fun _ => rfl⟩
  have hshape : (((entries.find? "shape").map (·.source origin)).or (lent.find? "shape")).bind
      (fun s => (g.items? s).bind allNumbers) =
      ((entries.find? "shape").or (lent.find? "shape")).bind
        fun s => (g.items? s).bind allNumbers := by
    cases hs : entries.find? "shape" with
    | none => rfl
    | some s => exact numbers_source (hparts _ (Entries.mem_of_find? hs))
  rw [description?_eq, description?_eq, hlent, hlent]
  simp only [Entries.find?_append, find?_source, hshape]
  cases entries.find? "dtype" with
  | none => rfl
  | some dtype => cases dtype <;> rfl

/-- **A copy is observed by what it holds, as its source would be by what that is a copy of.** -/
theorem nodeType_source {obs : Hint → Value → Except Fault TypeSpec}
    {keyObs : Value → Except Fault TypeSpec} (h : g.CopyAt origin id)
    (hparts : ∀ part, g.Holds (.node id) (.node part) → g.CopyAt origin part) (hint : Hint) :
    g.nodeType obs keyObs hint (origin id) =
      g.nodeType (fun hint w => obs hint (w.source origin)) (fun w => keyObs (w.source origin)) hint
        id := by
  have hnode : g.node? (origin id) = (g.node? id).map (·.source origin) := h
  unfold Graph.nodeType
  rw [hnode, h.label]
  unfold Graph.Holds Graph.held at hparts
  cases hown : g.node? id with
  | none => rfl
  | some n =>
      simp only [hown] at hparts
      cases n with
      | list items => exact listType_source origin hint items
      | map entries => exact mapType_source origin hint entries
      | object lineage entries =>
          have hdescribed : g.description?
              (g.describing lineage (entries.map fun e => (e.1, e.2.source origin))) =
              g.description? (g.describing lineage entries) :=
            description_source lineage fun e he part hpart =>
              hparts part (List.mem_map.2 ⟨e, he, hpart⟩)
          simp only [Option.map_some, Node.source, hdescribed, tableType_source]

end Containers

/-! ## 4. Copies without cycles -/

namespace Graph

variable {g : Graph} {origin : Nat → Nat}

theorem Copies.of_holds {w v x : Value} (h : g.Copies origin w v) (hx : g.Holds w x) :
    g.Copies origin x (x.source origin) := ⟨rfl, fun id hid => h.nodes id (.head hx hid)⟩

/-- What a copy holds is a copy of what its source holds. -/
theorem Copies.holds {w v x : Value} (h : g.Copies origin w v) (hx : g.Holds w x) :
    g.Holds v (x.source origin) := by
  obtain rfl := h.root
  cases w with
  | node id =>
      have hnode : g.node? (origin id) = (g.node? id).map (·.source origin) := h.nodes id .refl
      have hown := node?_of_lt_size (lt_size_of_holds hx)
      rw [hown, Option.map_some] at hnode
      unfold Holds at hx ⊢
      rw [held_node hown] at hx
      rw [Value.source, held_node hnode, Node.held_source]
      exact List.mem_map_of_mem hx
  | fieldTable fs ancestor =>
      obtain ⟨t, rfl⟩ := holds_fieldTable hx
      exact hx
  | _ => cases hx

theorem Copies.of_reaches {w v x : Value} (h : g.Copies origin w v) (hx : g.Reaches w x) :
    g.Copies origin x (x.source origin) ∧ g.Reaches v (x.source origin) := by
  induction hx with
  | refl => exact ⟨⟨rfl, h.nodes⟩, h.root ▸ .refl⟩
  | tail _ hstep ih => exact ⟨ih.1.of_holds hstep, ih.2.tail (ih.1.holds hstep)⟩

theorem Copies.transGen {w v x : Value} (h : g.Copies origin w v)
    (hx : Relation.TransGen g.Holds w x) : Relation.TransGen g.Holds v (x.source origin) := by
  obtain ⟨y, hy, hyx⟩ := Relation.TransGen.head'_iff.1 hx
  exact .head' (h.holds hy) ((h.of_holds hy).of_reaches hyx).2

/-- **A copy of a value without cycles has none.** -/
theorem Copies.acyclic {w v : Value} (h : g.Copies origin w v) (hv : g.Acyclic v) : g.Acyclic w := by
  intro x hx hloop
  obtain ⟨hcopy, hreach⟩ := h.of_reaches hx
  exact hv _ hreach (hcopy.transGen hloop)

/-- A container without cycles is observed by what it holds, as that is on its own. -/
theorem observeAt_node_of_acyclic {id : Nat} (hv : g.Acyclic (.node id)) (hint : Hint) :
    g.observeAt [] [] hint (.node id) =
      g.nodeType (fun hint w => g.observeAt [] [] hint w) (fun w => g.observeAt [] [] .none w) hint
        id := by
  have hinside : ∀ {w}, g.Holds (.node id) w → ∀ {keyed visiting : List Nat}, (∀ i ∈ keyed, i = id) →
      (∀ i ∈ visiting, i = id) → ∀ hint,
        g.observeAt keyed visiting hint w = g.observeAt [] [] hint w := by
    intro w hw keyed visiting hkeyed hvisiting hint
    have hfresh : ∀ i, g.Reaches w (.node i) → i ≠ id := by
      rintro i hi rfl
      exact hv _ .refl (.head' hw hi)
    exact observeAt_of_acyclic (hv.of_holds hw) hint
      (fun i hi => ⟨fun h => hfresh i hi (hvisiting i h), fun h => hfresh i hi (hkeyed i h)⟩)
      fun _ _ => ⟨List.not_mem_nil, List.not_mem_nil⟩
  rw [observeAt_node g hint List.not_mem_nil fun _ _ => List.not_mem_nil]
  exact nodeType_congr hint (fun w hw => hinside hw (by simp) (by simp) .none)
    fun w hw hint => hinside hw (by simp) (by simp) hint

/-- **A value without cycles is observed as each of its copies is**, whatever the copy shares. -/
theorem Copies.observeAt_eq {w v : Value} (h : g.Copies origin w v) (hv : g.Acyclic v) (hint : Hint) :
    g.observeAt [] [] hint w = g.observeAt [] [] hint v := by
  have hacc := (h.acyclic hv).acc
  induction hacc generalizing v hint with
  | intro w _ ih =>
      have hw := h.acyclic hv
      obtain rfl := h.root
      rcases w.not_node_or with hnode | ⟨id, rfl⟩
      · rw [Value.source_of_not_node hnode]
      have hpart : ∀ x, g.Holds (.node id) x → ∀ hint,
          g.observeAt [] [] hint x = g.observeAt [] [] hint (x.source origin) := by
        intro x hx hint
        exact ih x hx (h.of_holds hx) (hv.of_holds (h.holds hx)) hint
      calc g.observeAt [] [] hint (.node id)
          = g.nodeType (fun hint x => g.observeAt [] [] hint x)
              (fun x => g.observeAt [] [] .none x) hint id := observeAt_node_of_acyclic hw hint
        _ = g.nodeType (fun hint x => g.observeAt [] [] hint (x.source origin))
              (fun x => g.observeAt [] [] .none (x.source origin)) hint id :=
            nodeType_congr hint (fun x hx => hpart x hx .none) hpart
        _ = g.nodeType (fun hint x => g.observeAt [] [] hint x)
              (fun x => g.observeAt [] [] .none x) hint (origin id) :=
            (nodeType_source (h.nodes id .refl) (fun part hx => (h.of_holds hx).nodes part .refl)
              hint).symm
        _ = g.observeAt [] [] hint (.node (origin id)) := (observeAt_node_of_acyclic hv hint).symm

end Graph

end SchemaFlow
