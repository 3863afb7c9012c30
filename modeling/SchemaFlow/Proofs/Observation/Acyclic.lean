import Mathlib.Logic.Relation
import SchemaFlow.Proofs.Observation.Refinement

/-!
# Values without cycles

An observation remembers which containers it is inside of. For a value that is not part of itself
this makes no difference: its parts are observed as they are on their own
(`observeAt_of_acyclic`). The proof goes down the parts, which comes to an end because the graph is
finite (`Graph.Acyclic.acc`).
-/

namespace SchemaFlow

/-! ## 1. What a value holds -/

theorem Value.not_node_or (v : Value) : (∀ id, v ≠ .node id) ∨ ∃ id, v = .node id := by
  cases v with
  | node id => exact Or.inr ⟨id, rfl⟩
  | _ => exact Or.inl fun _ => by simp

/-- What a container holds. -/
def Node.held : Node → List Value
  | .list items => items
  | .object _ entries => entries.map Prod.snd
  | .map entries => entries.map Prod.fst ++ entries.map Prod.snd

namespace Graph

/-- The values that a value holds directly. -/
def held (g : Graph) : Value → List Value
  | .node id =>
    match g.node? id with
    | none => []
    | some (.list items) => items
    | some (.object _ entries) => entries.map Prod.snd
    | some (.map entries) => entries.map Prod.fst ++ entries.map Prod.snd
  | .fieldTable fs _ => fs.map fun e => .type e.2
  | _ => []

theorem held_node {g : Graph} {id : Nat} {n : Node} (h : g.node? id = some n) :
    g.held (.node id) = n.held := by
  unfold held
  simp only [h]
  cases n <;> rfl

/-- A value holds another directly. -/
def Holds (g : Graph) (v w : Value) : Prop := w ∈ g.held v

/-- A value is another, or holds it at some depth. -/
abbrev Reaches (g : Graph) : Value → Value → Prop := Relation.ReflTransGen g.Holds

/-- No container in a value holds itself. -/
def Acyclic (g : Graph) (v : Value) : Prop :=
  ∀ w, g.Reaches v w → ¬ Relation.TransGen g.Holds w w

/-- A value is no type and holds none. -/
def Typeless (g : Graph) (v : Value) : Prop := ∀ t, ¬ g.Reaches v (.type t)

variable {g : Graph}

theorem Acyclic.of_holds {v w : Value} (h : g.Acyclic v) (hvw : g.Holds v w) : g.Acyclic w :=
  fun x hx => h x (.head hvw hx)

theorem Typeless.of_holds {v w : Value} (h : g.Typeless v) (hvw : g.Holds v w) : g.Typeless w :=
  fun t ht => h t (.head hvw ht)

theorem holds_fieldTable {fs : List (String × TypeSpec)} {ancestor : Option TypeSpec} {w : Value}
    (h : g.Holds (.fieldTable fs ancestor) w) : ∃ t, w = .type t := by
  obtain ⟨e, _, rfl⟩ := List.mem_map.1 h
  exact ⟨e.2, rfl⟩

/-- Only what is in the graph, or a table of types, holds anything. -/
theorem Holds.cases {v w : Value} (h : g.Holds v w) :
    (∃ id, v = .node id ∧ id < g.size) ∨ ∃ t, w = .type t := by
  cases v with
  | node id =>
      refine Or.inl ⟨id, rfl, ?_⟩
      unfold Holds held at h
      dsimp only at h
      cases hn : g.node? id with
      | none =>
          rw [hn] at h
          cases h
      | some n => exact lt_size_of_node? hn
  | fieldTable fs ancestor => exact Or.inr (holds_fieldTable h)
  | _ => cases h

theorem held_leaf {v : Value} (hv : v.isContainer = false) : g.held v = [] := by
  cases v with
  | node _ => cases hv
  | fieldTable _ _ => cases hv
  | _ => rfl

/-- The parts of an acyclic value come to an end: on the way down, through the containers of
    `visited`, ever fewer containers are left. -/
theorem Acyclic.acc_below (g : Graph) : ∀ (n : Nat) {visited : List Nat} {v : Value},
    g.unvisited visited ≤ n → (∀ id ∈ visited, Relation.TransGen g.Holds (.node id) v) →
      g.Acyclic v → Acc (fun w u => g.Holds u w) v := by
  intro n
  induction n with
  | zero =>
      intro visited v hn hvisited hv
      refine .intro v fun w hw => ?_
      rcases hw.cases with ⟨id, rfl, hid⟩ | ⟨t, rfl⟩
      · have hnew : id ∉ visited := fun h => hv _ .refl (hvisited id h)
        have := unvisited_cons_lt hid hnew
        omega
      · exact .intro _ fun x hx => by cases hx
  | succ n ih =>
      intro visited v hn hvisited hv
      refine .intro v fun w hw => ?_
      rcases hw.cases with ⟨id, rfl, hid⟩ | ⟨t, rfl⟩
      · have hnew : id ∉ visited := fun h => hv _ .refl (hvisited id h)
        have hless := unvisited_cons_lt hid hnew
        refine ih (Nat.le_of_lt_succ (Nat.lt_of_lt_of_le hless hn)) ?_ (hv.of_holds hw)
        rintro other (_ | ⟨_, hother⟩)
        · exact .single hw
        · exact (hvisited other hother).tail hw
      · exact .intro _ fun x hx => by cases hx

theorem Acyclic.acc {v : Value} (hv : g.Acyclic v) : Acc (fun w u => g.Holds u w) v :=
  acc_below g (g.unvisited []) (Nat.le_refl _) (fun _ h => absurd h List.not_mem_nil) hv

end Graph

/-! ## 2. Observations that agree on the parts -/

section Congruence

variable {obs obs' : Hint → Value → Except Fault TypeSpec}

theorem firstMisfit_congr {f f' : Value → Except Fault TypeSpec} (e : TypeSpec) :
    ∀ {vs : List Value} (first : Option TypeSpec), (∀ v ∈ vs, f v = f' v) →
      firstMisfit f e first vs = firstMisfit f' e first vs
  | [], _, _ => rfl
  | v :: vs, first, h => by
      obtain ⟨hv, hvs⟩ := List.forall_mem_cons.1 h
      rw [firstMisfit, firstMisfit, hv]
      congr
      funext t
      rw [firstMisfit_congr e _ hvs]

theorem elementType_congr {f f' : Value → Except Fault TypeSpec} (e : Option TypeSpec)
    {vs : List Value} (h : ∀ v ∈ vs, f v = f' v) : elementType f e vs = elementType f' e vs := by
  cases e with
  | some e => exact firstMisfit_congr e none h
  | none =>
      cases vs with
      | nil => rfl
      | cons v vs => exact h v List.mem_cons_self

theorem listType_congr (hint : Hint) {items : List Value}
    (h : ∀ v ∈ items, ∀ hint, obs hint v = obs' hint v) :
    listType obs hint items = listType obs' hint items := by
  have helement : elementType (obs hint.element) hint.element.type? items =
      elementType (obs' hint.element) hint.element.type? items :=
    elementType_congr _ fun v hv => h v hv _
  unfold listType
  dsimp only
  rw [helement]

theorem observeFields_congr (hint : Hint) : ∀ {entries : Entries Value} (f : Filling TypeSpec),
    (∀ e ∈ entries, ∀ hint, obs hint e.2 = obs' hint e.2) →
      observeFields obs hint f entries = observeFields obs' hint f entries
  | [], _, _ => rfl
  | (name, v) :: entries, f, h => by
      obtain ⟨hv, hrest⟩ := List.forall_mem_cons.1 h
      rw [observeFields, observeFields, hv]
      split
      · exact observeFields_congr hint f hrest
      · congr
        funext t
        split
        · exact observeFields_congr hint _ hrest
        · rfl

theorem tableType_congr (hint : Hint) {entries : Entries Value}
    (h : ∀ e ∈ entries, ∀ hint, obs hint e.2 = obs' hint e.2) :
    tableType obs hint entries = tableType obs' hint entries := by
  have hcontents : elementType (obs hint.value) hint.value.type? entries.contents =
      elementType (obs' hint.value) hint.value.type? entries.contents := by
    refine elementType_congr _ fun v hv => ?_
    obtain ⟨e, he, rfl⟩ := List.mem_map.1 hv
    exact h e he _
  unfold tableType
  dsimp only
  rw [observeFields_congr _ _ h, hcontents]

theorem keyKinds_congr {f f' : Value → Except Fault TypeSpec} : ∀ {vs : List Value}
    (kinds : List ScalarKind), (∀ v ∈ vs, f v = f' v) → keyKinds f kinds vs = keyKinds f' kinds vs
  | [], _, _ => rfl
  | v :: vs, kinds, h => by
      obtain ⟨hv, hvs⟩ := List.forall_mem_cons.1 h
      rw [keyKinds, keyKinds, hv]
      congr
      funext t
      cases t <;> exact keyKinds_congr _ hvs

theorem mapType_congr {keyObs keyObs' : Value → Except Fault TypeSpec} (hint : Hint)
    {entries : List (Value × Value)} (hkey : ∀ e ∈ entries, keyObs e.1 = keyObs' e.1)
    (h : ∀ e ∈ entries, ∀ hint, obs hint e.2 = obs' hint e.2) :
    mapType obs keyObs hint entries = mapType obs' keyObs' hint entries := by
  have hkeys : keyKinds keyObs [] (entries.map Prod.fst) =
      keyKinds keyObs' [] (entries.map Prod.fst) := by
    refine keyKinds_congr _ fun v hv => ?_
    obtain ⟨e, he, rfl⟩ := List.mem_map.1 hv
    exact hkey e he
  have hvalues : elementType (obs hint.value) hint.value.type? (entries.map Prod.snd) =
      elementType (obs' hint.value) hint.value.type? (entries.map Prod.snd) := by
    refine elementType_congr _ fun v hv => ?_
    obtain ⟨e, he, rfl⟩ := List.mem_map.1 hv
    exact h e he _
  unfold mapType
  dsimp only
  rw [hkeys, hvalues]

/-- **A node is observed by what it holds**, and by its keys if it is a map. -/
theorem nodeType_congr_of_keys {g : Graph} {keyObs keyObs' : Value → Except Fault TypeSpec}
    (hint : Hint) {id : Nat}
    (hkey : ∀ entries, g.node? id = some (.map entries) → ∀ e ∈ entries, keyObs e.1 = keyObs' e.1)
    (h : ∀ w, g.Holds (.node id) w → ∀ hint, obs hint w = obs' hint w) :
    g.nodeType obs keyObs hint id = g.nodeType obs' keyObs' hint id := by
  unfold Graph.Holds Graph.held at h
  unfold Graph.nodeType
  cases hnode : g.node? id with
  | none => rfl
  | some n =>
      simp only [hnode] at h
      cases n with
      | list items => exact listType_congr hint h
      | map entries =>
          exact mapType_congr hint (hkey entries hnode)
            (fun e he => h _ (List.mem_append_right _ (List.mem_map_of_mem he)))
      | object lineage entries =>
          have htable : tableType obs hint entries = tableType obs' hint entries :=
            tableType_congr hint fun e he => h _ (List.mem_map_of_mem he)
          simp only [htable]

theorem nodeType_congr {g : Graph} {keyObs keyObs' : Value → Except Fault TypeSpec} (hint : Hint)
    {id : Nat} (hkey : ∀ w, g.Holds (.node id) w → keyObs w = keyObs' w)
    (h : ∀ w, g.Holds (.node id) w → ∀ hint, obs hint w = obs' hint w) :
    g.nodeType obs keyObs hint id = g.nodeType obs' keyObs' hint id := by
  refine nodeType_congr_of_keys hint (fun entries hnode e he => hkey e.1 ?_) h
  unfold Graph.Holds Graph.held
  simp only [hnode]
  exact List.mem_append_left _ (List.mem_map_of_mem he)

end Congruence

/-! ## 3. Visiting makes no difference -/

/-- Only nodes are looked up among what is being visited. -/
theorem observeAt_not_node (g : Graph) (keyed visiting keyed' visiting' : List Nat) (hint : Hint)
    {v : Value} (hv : ∀ id, v ≠ .node id) :
    g.observeAt keyed visiting hint v = g.observeAt keyed' visiting' hint v := by
  cases v with
  | node id => exact absurd rfl (hv id)
  | fieldTable fs ancestor => cases ancestor <;> rw [Graph.observeAt, Graph.observeAt]
  | drop => rw [Graph.observeAt, Graph.observeAt]
  | sizeList ds => rw [Graph.observeAt, Graph.observeAt]
  | founder f =>
      by_cases hf : f = .list
      · subst hf
        rw [Graph.observeAt, Graph.observeAt]
      · rw [observeAt_founder g _ _ hint hf, observeAt_founder g _ _ hint hf]
  | _ => rw [observeAt_leaf g _ _ hint rfl, observeAt_leaf g _ _ hint rfl]

/-- **An acyclic value is observed as it is on its own**, inside containers that it does not reach. -/
theorem observeAt_of_acyclic {g : Graph} {v : Value} (hv : g.Acyclic v) :
    ∀ {keyed visiting keyed' visiting' : List Nat} (hint : Hint),
      (∀ id, g.Reaches v (.node id) → id ∉ visiting ∧ id ∉ keyed) →
      (∀ id, g.Reaches v (.node id) → id ∉ visiting' ∧ id ∉ keyed') →
      g.observeAt keyed visiting hint v = g.observeAt keyed' visiting' hint v := by
  have hacc := hv.acc
  induction hacc with
  | intro v _ ih =>
      intro keyed visiting keyed' visiting' hint h h'
      rcases v.not_node_or with hnode | ⟨id, rfl⟩
      · exact observeAt_not_node g keyed visiting keyed' visiting' hint hnode
      · -- what the node holds does not reach the node
        have hfresh : ∀ w, g.Holds (.node id) w → ∀ other, g.Reaches w (.node other) →
            other ≠ id ∧ g.Reaches (.node id) (.node other) := by
          intro w hw other hother
          refine ⟨?_, .head hw hother⟩
          rintro rfl
          exact hv _ .refl (.head' hw hother)
        rw [observeAt_node g hint (h id .refl).1 fun _ _ => (h id .refl).2,
          observeAt_node g hint (h' id .refl).1 fun _ _ => (h' id .refl).2]
        refine nodeType_congr hint (fun w hw => ?_) (fun w hw hint => ?_)
        · refine ih w hw (hv.of_holds hw) .none (fun other hother => ?_) (fun other hother => ?_)
          · obtain ⟨hne, hreach⟩ := hfresh w hw other hother
            exact ⟨List.not_mem_nil, by simp [hne, (h other hreach).2]⟩
          · obtain ⟨hne, hreach⟩ := hfresh w hw other hother
            exact ⟨List.not_mem_nil, by simp [hne, (h' other hreach).2]⟩
        · refine ih w hw (hv.of_holds hw) hint (fun other hother => ?_) (fun other hother => ?_)
          · obtain ⟨hne, hreach⟩ := hfresh w hw other hother
            exact ⟨by simp [hne, (h other hreach).1], (h other hreach).2⟩
          · obtain ⟨hne, hreach⟩ := hfresh w hw other hother
            exact ⟨by simp [hne, (h' other hreach).1], (h' other hreach).2⟩

/-! ## 4. Listed parts -/

variable {g : Graph} {v : Value}

theorem mem_indexed {α : Type} {items : List α} {e : String × α} (he : e ∈ indexed items) :
    e.2 ∈ items := by
  obtain ⟨⟨w, i⟩, hmem, rfl⟩ := List.mem_map.1 he
  exact List.fst_mem_of_mem_zipIdx hmem

/-- What a list lists under its positions are items of it. -/
theorem mem_listedItems {items : List Value} {e : String × Value} (he : e ∈ listedItems items) :
    e.2 ∈ items :=
  mem_indexed (List.mem_filter.1 he).1

theorem holds_of_mem_node {id : Nat} {e : String × Value} (he : e ∈ g.listed (.node id)) :
    g.Holds (.node id) e.2 := by
  unfold Graph.listed Graph.node at he
  unfold Graph.Holds Graph.held
  cases hnode : g.node? id with
  | none => simp [hnode, default] at he
  | some n =>
      simp only [hnode, Option.getD_some] at he ⊢
      cases n with
      | list items => exact mem_listedItems he
      | map entries => cases he
      | object lineage entries => exact List.mem_map_of_mem he

/-- A listed part of a value is held by it, unless it is a primitive value. -/
theorem holds_of_mem_listed (ht : ∀ t, v ≠ .type t) {e : String × Value} (he : e ∈ g.listed v) :
    g.Holds v e.2 ∨ g.held e.2 = [] ∧ ∀ t, e.2 ≠ .type t := by
  cases v with
  | type t => exact absurd rfl (ht t)
  | text s =>
      obtain ⟨c, _, hc⟩ := List.mem_map.1 (mem_indexed he)
      rw [← hc]
      exact Or.inr ⟨rfl, by simp⟩
  | fieldTable fs ancestor =>
      obtain ⟨field, hfield, rfl⟩ := List.mem_map.1 he
      exact Or.inl (List.mem_map_of_mem hfield)
  | sizeList ds =>
      obtain ⟨d, _, hd⟩ := List.mem_map.1 (mem_indexed he)
      rw [← hd]
      cases d <;> exact Or.inr ⟨rfl, by simp [Dimension.value, sizeValue]⟩
  | drop =>
      obtain rfl := List.mem_singleton.1 he
      exact Or.inr ⟨rfl, by simp⟩
  | buffer c n =>
      rw [List.eq_of_mem_replicate (mem_indexed he)]
      unfold bufferZero
      split <;> exact Or.inr ⟨rfl, by simp⟩
  | node id => exact Or.inl (holds_of_mem_node he)
  | _ => cases he

theorem eq_of_reaches {w x : Value} (hw : g.held w = []) (h : g.Reaches w x) : x = w := by
  rcases Relation.ReflTransGen.cases_head h with rfl | ⟨y, hy, _⟩
  · rfl
  · unfold Graph.Holds at hy
    rw [hw] at hy
    cases hy

theorem acyclic_of_held {w : Value} (hw : g.held w = []) : g.Acyclic w := by
  intro x hx hcycle
  obtain rfl := eq_of_reaches hw hx
  obtain ⟨y, hy, _⟩ := Relation.TransGen.head'_iff.1 hcycle
  unfold Graph.Holds at hy
  rw [hw] at hy
  cases hy

theorem typeless_of_held {w : Value} (hw : g.held w = []) (ht : ∀ t, w ≠ .type t) :
    g.Typeless w := by
  intro t h
  exact ht t (eq_of_reaches hw h).symm

theorem Graph.Typeless.ne_type (hv : g.Typeless v) (t : TypeSpec) : v ≠ .type t := by
  rintro rfl
  exact hv t .refl

theorem Graph.Acyclic.listed (hv : g.Acyclic v) (ht : ∀ t, v ≠ .type t) {e : String × Value}
    (he : e ∈ g.listed v) : g.Acyclic e.2 := by
  rcases holds_of_mem_listed ht he with h | ⟨h, _⟩
  · exact hv.of_holds h
  · exact acyclic_of_held h

theorem Graph.Typeless.listed (hv : g.Typeless v) {e : String × Value} (he : e ∈ g.listed v) :
    g.Typeless e.2 := by
  rcases holds_of_mem_listed hv.ne_type he with h | ⟨h, ht⟩
  · exact hv.of_holds h
  · exact typeless_of_held h ht

end SchemaFlow
