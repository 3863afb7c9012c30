import SchemaFlow.Proofs.Observation.Plain

/-!
# The forms of values

To an observation a value is a type, a scalar, a list, a table, a map, or something that is seen in
one way only (`Graph.form`). A list, a table and a map are seen by their parts, under hints that the
hint of the whole gives (`observeAt_form`). What counts as a table is a plain object that does not
describe itself.

* `seen_observeAt`: inside a walk a value is seen by its parts, or in one way whatever the hint.
* `observe_form`: a value without cycles is seen by its parts as they are seen on their own.
-/

namespace SchemaFlow

/-! ## 1. Forms -/

/-- What a value is to an observation. -/
inductive Form
  | type (t : TypeSpec)
  | scalar (k : ScalarKind)
  | list (items : List Value)
  /-- a plain object that does not describe itself -/
  | table (entries : Entries Value)
  | map (entries : List (Value × Value))
  /-- a value that every hint shows in the same way -/
  | other

namespace Form

/-- What is seen of a form: `obs` observes parts, `keyObs` the keys of a map, and `own` is what is
    seen where there is nothing to look into. -/
def shown (obs : Hint → Value → Except Fault TypeSpec) (keyObs : Value → Except Fault TypeSpec)
    (own : Except Fault TypeSpec) (hint : Hint) : Form → Except Fault TypeSpec
  | type t => .ok t
  | scalar k => .ok (.scalar k)
  | list items => listType obs hint items
  | table entries => tableType obs hint entries
  | map entries => mapType obs keyObs hint entries
  | other => own

/-- The values that a form is made of. -/
def parts : Form → List Value
  | list items => items
  | table entries => entries.contents
  | map entries => entries.map Prod.fst ++ entries.map Prod.snd
  | _ => []

/-- Observations that agree on the parts show the same of the whole. -/
theorem shown_congr {obs obs' : Hint → Value → Except Fault TypeSpec}
    {keyObs keyObs' : Value → Except Fault TypeSpec} (own : Except Fault TypeSpec) (hint : Hint)
    (form : Form) (hkey : ∀ w ∈ form.parts, keyObs w = keyObs' w)
    (h : ∀ w ∈ form.parts, ∀ hint, obs hint w = obs' hint w) :
    form.shown obs keyObs own hint = form.shown obs' keyObs' own hint := by
  cases form with
  | list items => exact listType_congr hint h
  | table entries => exact tableType_congr hint fun e he => h e.2 (List.mem_map_of_mem he)
  | map entries =>
      exact mapType_congr hint
        (fun e he => hkey e.1 (List.mem_append_left _ (List.mem_map_of_mem he)))
        (fun e he => h e.2 (List.mem_append_right _ (List.mem_map_of_mem he)))
  | _ => rfl

end Form

namespace Graph

/-- The form of the founder of a family. -/
def founderForm (g : Graph) (f : Family) : Form :=
  if f = .list then .list []
  else
    match g.partsOf (.founder f) with
    | .ok entries => if g.isPlain (.founder f) then .table entries else .other
    | .error _ => .other

/-- The form of a container. -/
def nodeForm (g : Graph) (id : Nat) : Form :=
  match g.node? id with
  | none => .table []
  | some (.list items) => .list items
  | some (.map entries) => .map entries
  | some (.object lineage entries) =>
    match g.description? (g.describing lineage entries) with
    | some _ => .other
    | none =>
      match lineage with
      | .ofClass _ | .sealed (some _) => .other
      | .plain | .bare | .sealed none => .table entries

/-- The form of a value. -/
def form (g : Graph) : Value → Form
  | .type t => .type t
  | .text _ => .scalar .string
  | .number _ => .scalar .float
  | .whole _ => .scalar .integer
  | .bool _ => .scalar .boolean
  | .instant _ => .scalar .datetime
  | .sizeList ds => .list (ds.map Dimension.value)
  | .fieldTable fs none => .table (g.listed (.fieldTable fs none))
  | .drop => .table (g.listed .drop)
  | .founder f => g.founderForm f
  | .node id => g.nodeForm id
  | _ => .other

end Graph

variable {g : Graph} {v : Value}

/-! ## 2. Parts -/

/-- The containers that a walk is inside of once it looks into a value. -/
def Value.enter (visiting : List Nat) : Value → List Nat
  | .node id => id :: visiting
  | _ => visiting

theorem mem_enter_iff {visiting : List Nat} {id : Nat} :
    id ∈ v.enter visiting ↔ v = .node id ∨ id ∈ visiting := by
  cases v with
  | node other => simp [Value.enter, eq_comm]
  | _ => simp [Value.enter]

/-- A founder has no parts of its own. -/
theorem founderForm_parts (g : Graph) (f : Family) : (g.founderForm f).parts = [] := by
  unfold Graph.founderForm
  split
  · rfl
  · split
    · rename_i entries hentries
      have hnone : entries = [] := by
        unfold Graph.partsOf at hentries
        split at hentries <;> cases hentries
        rfl
      subst hnone
      split <;> rfl
    · rfl

/-- A container holds its parts. -/
theorem holds_of_mem_nodeForm {id : Nat} {w : Value} (hw : w ∈ (g.nodeForm id).parts) :
    g.Holds (.node id) w := by
  unfold Graph.Holds Graph.held
  unfold Graph.nodeForm at hw
  dsimp only
  cases hnode : g.node? id with
  | none =>
      rw [hnode] at hw
      cases hw
  | some n =>
      rw [hnode] at hw
      cases n with
      | list items => exact hw
      | map entries => exact hw
      | object lineage entries =>
          dsimp only at hw
          cases hdescribed : g.description? (g.describing lineage entries) with
          | some described =>
              rw [hdescribed] at hw
              cases hw
          | none =>
              rw [hdescribed] at hw
              rcases lineage with _ | _ | _ | (_ | _)
              · exact hw
              · exact hw
              · cases hw
              · exact hw
              · cases hw

/-- A part of a value is held by it, or has no parts itself. -/
theorem holds_or_leaf_of_mem_parts {w : Value} (hw : w ∈ (g.form v).parts) :
    g.Holds v w ∨ w.isContainer = false := by
  cases v with
  | fieldTable fs ancestor =>
      cases ancestor with
      | some a => cases hw
      | none =>
          obtain ⟨e, he, rfl⟩ := List.mem_map.1 hw
          obtain ⟨field, hfield, rfl⟩ := List.mem_map.1 he
          exact Or.inl (List.mem_map_of_mem hfield)
  | drop =>
      obtain rfl := List.mem_singleton.1 hw
      exact Or.inr rfl
  | sizeList ds =>
      obtain ⟨d, _, rfl⟩ := List.mem_map.1 hw
      cases d <;> exact Or.inr rfl
  | founder f =>
      have hnone : w ∈ (g.founderForm f).parts := hw
      rw [founderForm_parts] at hnone
      cases hnone
  | node id => exact Or.inl (holds_of_mem_nodeForm hw)
  | _ => cases hw

/-! ## 3. Observations by form -/

theorem founderType_form (g : Graph) (f : Family) (obs : Hint → Value → Except Fault TypeSpec)
    (keyObs : Value → Except Fault TypeSpec) (keyed visiting : List Nat) (hint : Hint) :
    g.observeAt keyed visiting hint (.founder f) =
      (g.founderForm f).shown obs keyObs (g.observe none (.founder f)) hint := by
  have hparts := founderForm_parts g f
  unfold Graph.founderForm at hparts ⊢
  by_cases hf : f = .list
  · subst hf
    rw [Graph.observeAt]
    exact listType_congr hint fun w hw => absurd hw List.not_mem_nil
  · rw [Graph.observe, observeAt_founder g _ _ _ hf, observeAt_founder g _ _ _ hf]
    rw [if_neg hf] at hparts ⊢
    unfold Graph.founderType
    cases hentries : g.partsOf (.founder f) with
    | error e => rfl
    | ok entries =>
        rw [hentries] at hparts
        dsimp only at hparts ⊢
        rw [Step.bind_of_ok rfl, Step.bind_of_ok rfl]
        split
        · rename_i hplain
          rw [if_pos hplain] at hparts
          obtain rfl : entries = [] := List.map_eq_nil_iff.1 hparts
          exact tableType_congr hint fun e he => absurd he List.not_mem_nil
        · rfl

theorem nodeType_form {id : Nat} {keyed visiting : List Nat} (hnew : id ∉ visiting)
    (hkey : id ∈ keyed → ∀ entries, g.nodeForm id ≠ .map entries) (hint : Hint) :
    g.observeAt keyed visiting hint (.node id) =
      (g.nodeForm id).shown (fun hint w => g.observeAt keyed (id :: visiting) hint w)
        (fun w => g.observeAt (id :: keyed) [] .none w) (g.observe none (.node id)) hint := by
  have hkey' : ∀ entries, g.node? id = some (.map entries) → id ∉ keyed := by
    intro entries hnode hmem
    refine hkey hmem entries ?_
    rw [Graph.nodeForm, hnode]
  have hown : g.observe none (.node id) = g.nodeType (fun hint w => g.observeAt [] [id] hint w)
      (fun w => g.observeAt [id] [] .none w) .none id :=
    observeAt_node g .none List.not_mem_nil fun _ _ => List.not_mem_nil
  rw [observeAt_node g hint hnew hkey', hown]
  unfold Graph.nodeType Graph.nodeForm
  cases g.node? id with
  | none => exact tableType_congr hint fun e he => absurd he List.not_mem_nil
  | some n =>
      cases n with
      | list items => rfl
      | map entries => rfl
      | object lineage entries =>
          dsimp only
          cases g.description? (g.describing lineage entries) with
          | some described => rfl
          | none => rcases lineage with _ | _ | _ | (_ | _) <;> rfl

/-- **A value is seen by its form**, and by its parts inside it, unless it is being visited already
    or is a map inside one of its own keys. -/
theorem observeAt_form {keyed visiting : List Nat} (hnew : ∀ id ∈ visiting, v ≠ .node id)
    (hkey : ∀ id ∈ keyed, v = .node id → ∀ entries, g.form v ≠ .map entries) (hint : Hint) :
    g.observeAt keyed visiting hint v =
      (g.form v).shown (fun hint w => g.observeAt keyed (v.enter visiting) hint w)
        (fun w => g.observeAt (v.enter keyed) [] .none w) (g.observe none v) hint := by
  have hleaf : ∀ (keyed visiting : List Nat) (hint : Hint) (w : Value), w.isContainer = false →
      leafType w = g.observeAt keyed visiting hint w :=
    fun _ _ _ _ hw => (observeAt_leaf g _ _ _ hw).symm
  cases v with
  | fieldTable fs ancestor =>
      cases ancestor with
      | some a =>
          rw [Graph.observe, Graph.observeAt, Graph.observeAt]
          rfl
      | none =>
          rw [Graph.observeAt]
          refine tableType_congr hint fun e he hint => hleaf _ _ _ _ ?_
          obtain ⟨field, _, rfl⟩ := List.mem_map.1 he
          rfl
  | drop =>
      rw [Graph.observeAt]
      refine tableType_congr hint fun e he hint => hleaf _ _ _ _ ?_
      obtain rfl := List.mem_singleton.1 he
      rfl
  | sizeList ds =>
      rw [Graph.observeAt]
      refine listType_congr hint fun w hw hint => hleaf _ _ _ _ ?_
      obtain ⟨d, _, rfl⟩ := List.mem_map.1 hw
      cases d <;> rfl
  | founder f => exact founderType_form g f _ _ keyed visiting hint
  | node id =>
      exact nodeType_form (fun h => hnew id h rfl) (fun h => hkey id h rfl) hint
  | _ =>
      rw [Graph.observe, observeAt_leaf g _ _ _ rfl, observeAt_leaf g _ _ _ rfl]
      rfl

/-! ## 4. Inside a walk -/

theorem node?_of_nodeForm {id : Nat} {entries : List (Value × Value)}
    (h : g.nodeForm id = .map entries) : g.node? id = some (.map entries) := by
  unfold Graph.nodeForm at h
  cases hnode : g.node? id with
  | none =>
      rw [hnode] at h
      cases h
  | some n =>
      rw [hnode] at h
      cases n with
      | list items => cases h
      | map others =>
          cases h
          rfl
      | object lineage others =>
          dsimp only at h
          split at h
          · cases h
          · split at h <;> cases h

/-- What a walk sees of a value: the same whatever the hint, or the parts of the value under the
    hints that the hint of the whole gives. -/
inductive Seen (g : Graph) (keyed visiting : List Nat) (v : Value) : Prop
  | fixed : (∀ hint hint', g.observeAt keyed visiting hint v = g.observeAt keyed visiting hint' v) →
      Seen g keyed visiting v
  | list {items : List Value} : g.form v = .list items →
      (∀ hint, g.observeAt keyed visiting hint v =
        listType (fun hint w => g.observeAt keyed (v.enter visiting) hint w) hint items) →
      Seen g keyed visiting v
  | table {entries : Entries Value} : g.form v = .table entries →
      (∀ hint, g.observeAt keyed visiting hint v =
        tableType (fun hint w => g.observeAt keyed (v.enter visiting) hint w) hint entries) →
      Seen g keyed visiting v
  | map {entries : List (Value × Value)} (keyObs : Value → Except Fault TypeSpec) :
      g.form v = .map entries →
      (∀ hint, g.observeAt keyed visiting hint v =
        mapType (fun hint w => g.observeAt keyed (v.enter visiting) hint w) keyObs hint entries) →
      Seen g keyed visiting v

/-- **Inside a walk a value is seen by its parts, or in one way whatever the hint.** -/
theorem seen_observeAt (g : Graph) (keyed visiting : List Nat) (v : Value) :
    Seen g keyed visiting v := by
  by_cases hnew : ∀ id ∈ visiting, v ≠ .node id
  · by_cases hkey : ∀ id ∈ keyed, v = .node id → ∀ entries, g.form v ≠ .map entries
    · have hshown := observeAt_form hnew hkey
      cases hform : g.form v with
      | list items => exact .list hform fun hint => by rw [hshown, hform]; rfl
      | table entries => exact .table hform fun hint => by rw [hshown, hform]; rfl
      | map entries => exact .map _ hform fun hint => by rw [hshown, hform]; rfl
      | _ => exact .fixed fun hint hint' => by rw [hshown, hshown, hform]; rfl
    · -- a map inside one of its own keys
      obtain ⟨id, hmem, rfl, entries, hform⟩ :
          ∃ id ∈ keyed, v = .node id ∧ ∃ entries, g.form v = .map entries := by
        simpa using hkey
      have hid : id ∉ visiting := fun h => hnew id h rfl
      exact .fixed fun hint hint' => by
        rw [observeAt_endless g hint hid hmem (node?_of_nodeForm hform),
          observeAt_endless g hint' hid hmem (node?_of_nodeForm hform)]
  · obtain ⟨id, hmem, rfl⟩ : ∃ id ∈ visiting, v = .node id := by simpa using hnew
    exact .fixed fun hint hint' => by
      rw [observeAt_visited g keyed hint hmem, observeAt_visited g keyed hint' hmem]

/-! ## 5. What holds of the parts as well -/

/-- What a part leads to the whole leads to, or it has no parts. -/
theorem reaches_or_leaf_of_mem_parts {w x : Value} (hw : w ∈ (g.form v).parts)
    (hx : g.Reaches w x) : g.Reaches v x ∨ x.isContainer = false := by
  rcases holds_or_leaf_of_mem_parts hw with hholds | hleaf
  · exact Or.inl (.head hholds hx)
  · obtain rfl := eq_of_reaches (Graph.held_leaf hleaf) hx
    exact Or.inr hleaf

theorem form_parts_of_leaf (hv : v.isContainer = false) : (g.form v).parts = [] := by
  cases v with
  | fieldTable fs ancestor => cases hv
  | drop => cases hv
  | sizeList ds => cases hv
  | founder f => cases hv
  | node id => cases hv
  | _ => rfl

/-- Every plain object in a value has each name once. -/
def Graph.Tidy (g : Graph) (v : Value) : Prop :=
  ∀ w entries, g.Reaches v w → g.form w = .table entries → entries.Distinct

theorem Graph.Tidy.part (h : g.Tidy v) {w : Value} (hw : w ∈ (g.form v).parts) : g.Tidy w := by
  intro x entries hx hform
  rcases reaches_or_leaf_of_mem_parts hw hx with hreach | hleaf
  · exact h x entries hreach hform
  · have hnone := form_parts_of_leaf (g := g) hleaf
    rw [hform] at hnone
    obtain rfl : entries = [] := List.map_eq_nil_iff.1 hnone
    exact Entries.distinct_nil

theorem Graph.Acyclic.part (h : g.Acyclic v) {w : Value} (hw : w ∈ (g.form v).parts) :
    g.Acyclic w := by
  rcases holds_or_leaf_of_mem_parts hw with hholds | hleaf
  · exact h.of_holds hholds
  · exact acyclic_of_held (held_leaf hleaf)

/-- A part of a value without cycles is seen inside it as it is on its own. -/
theorem observeAt_part (hv : g.Acyclic v) {w : Value} (hw : w ∈ (g.form v).parts)
    {keyed visiting : List Nat} (hkeyed : ∀ id ∈ keyed, v = .node id)
    (hvisiting : ∀ id ∈ visiting, v = .node id) (hint : Hint) :
    g.observeAt keyed visiting hint w = g.observeAt [] [] hint w := by
  rcases holds_or_leaf_of_mem_parts hw with hholds | hleaf
  · -- what the value holds does not lead back to it
    have hfresh : ∀ id, g.Reaches w (.node id) → v ≠ .node id := by
      rintro id hid rfl
      exact hv _ .refl (.head' hholds hid)
    have houtside : ∀ id, g.Reaches w (.node id) → id ∉ visiting ∧ id ∉ keyed := fun id hid =>
      ⟨fun h => hfresh id hid (hvisiting id h), fun h => hfresh id hid (hkeyed id h)⟩
    exact observeAt_of_acyclic (hv.of_holds hholds) hint houtside
      fun id _ => ⟨List.not_mem_nil, List.not_mem_nil⟩
  · rw [observeAt_leaf g _ _ hint hleaf, observeAt_leaf g _ _ hint hleaf]

/-- **A value without cycles is seen by its form, and by its parts as they are on their own.** -/
theorem observe_form (hv : g.Acyclic v) (hint : Hint) :
    g.observeAt [] [] hint v =
      (g.form v).shown (fun hint w => g.observeAt [] [] hint w) (fun w => g.observeAt [] [] .none w)
        (g.observe none v) hint := by
  have henter : ∀ id ∈ v.enter [], v = .node id := by simp [mem_enter_iff]
  rw [observeAt_form (fun _ h => absurd h List.not_mem_nil) (fun _ h => absurd h List.not_mem_nil)]
  refine Form.shown_congr _ hint _ (fun w hw => ?_) (fun w hw hint => ?_)
  · exact observeAt_part hv hw henter (fun _ h => absurd h List.not_mem_nil) .none
  · exact observeAt_part hv hw (fun _ h => absurd h List.not_mem_nil) henter hint

end SchemaFlow
