import SchemaFlow.Proofs.Observation.Conformance

/-!
# Payload values made of payload values

A list of payload values is a payload value, and so is a plain object of payload values under proper
names, as long as none of them leads back to it. They are observed by what they hold.

* `observeAt_list`, `observeAt_object`: what they hold is observed as it is on its own.
* `Graph.clear_list`, `Graph.clear_object`: they are clear, hence payload values.
-/

namespace SchemaFlow

variable {g : Graph} {id : Nat}

/-! ## 1. Values without a way back -/

/-- A payload value that can be observed under every hint, tables of types included. -/
structure Graph.Clear (g : Graph) (v : Value) : Prop where
  acyclic : g.Acyclic v
  typeless : g.Typeless v
  observed : ∀ hint : Hint, ∃ t, g.observeAt [] [] hint v = .ok t

theorem Graph.Clear.tame {v : Value} (h : g.Clear v) : g.Tame v :=
  ⟨h.acyclic, h.typeless, fun hint => h.observed (.ofType? hint)⟩

theorem Graph.clear_leaf {v : Value} (hleaf : v.isContainer = false) (ht : ∀ t, v ≠ .type t)
    (hv : ∃ t, leafType v = .ok t) : g.Clear v where
  acyclic := acyclic_of_held (held_leaf hleaf)
  typeless := typeless_of_held (held_leaf hleaf) ht
  observed hint := by
    obtain ⟨t, h⟩ := hv
    exact ⟨t, (observeAt_leaf g [] [] hint hleaf).trans h⟩

theorem acyclic_of_holds {v : Value} (h : ∀ w, g.Holds v w → g.Acyclic w ∧ ¬ g.Reaches w v) :
    g.Acyclic v := by
  intro x hx hcycle
  rcases Relation.ReflTransGen.cases_head hx with rfl | ⟨w, hw, hwx⟩
  · obtain ⟨y, hy, hback⟩ := Relation.TransGen.head'_iff.1 hcycle
    exact (h y hy).2 hback
  · exact (h w hw).1 x hwx hcycle

theorem typeless_of_holds {v : Value} (hv : ∀ t, v ≠ .type t) (h : ∀ w, g.Holds v w → g.Typeless w) :
    g.Typeless v := by
  intro t ht
  rcases Relation.ReflTransGen.cases_head ht with rfl | ⟨w, hw, hwt⟩
  · exact hv t rfl
  · exact h w hw t hwt

/-- A value without parts leads to no node. -/
theorem not_reaches_of_leaf {v : Value} (hleaf : v.isContainer = false) :
    ¬ g.Reaches v (.node id) := by
  intro h
  obtain rfl := eq_of_reaches (Graph.held_leaf hleaf) h
  cases hleaf

/-- A value that does not lead to the node is observed inside the node as on its own. -/
theorem observeAt_inside {v : Value} (hv : g.Acyclic v) (hback : ¬ g.Reaches v (.node id))
    (hint : Hint) : g.observeAt [] [id] hint v = g.observeAt [] [] hint v := by
  refine observeAt_of_acyclic hv hint (fun other hother => ⟨?_, List.not_mem_nil⟩) fun _ _ => by simp
  rw [List.mem_singleton]
  rintro rfl
  exact hback hother

/-! ## 2. Lists -/

section Lists

variable {items : List Value} (hnode : g.node? id = some (.list items))

include hnode

theorem holds_list_iff {w : Value} : g.Holds (.node id) w ↔ w ∈ items := by
  unfold Graph.Holds Graph.held
  simp only [hnode]

/-- A list whose items do not lead anywhere is not led back to. -/
theorem not_reaches_list {other : Nat} (hne : id ≠ other)
    (hitems : ∀ w ∈ items, w.isContainer = false) : ¬ g.Reaches (.node id) (.node other) := by
  intro h
  rcases Relation.ReflTransGen.cases_head h with h | ⟨w, hw, hwo⟩
  · exact hne (Value.node.inj h)
  · exact not_reaches_of_leaf (hitems w ((holds_list_iff hnode).1 hw)) hwo

variable (hitems : ∀ w ∈ items, g.Clear w ∧ ¬ g.Reaches w (.node id))

include hitems

/-- **A list is observed by its items.** -/
theorem observeAt_list (hint : Hint) : g.observeAt [] [] hint (.node id) =
    listType (fun hint w => g.observeAt [] [] hint w) hint items := by
  rw [observeAt_node g _ List.not_mem_nil fun _ _ => List.not_mem_nil]
  unfold Graph.nodeType
  simp only [hnode]
  exact listType_congr hint fun w hw hint =>
    observeAt_inside (hitems w hw).1.acyclic (hitems w hw).2 hint

/-- **A list of clear values is clear.** -/
theorem Graph.clear_list : g.Clear (.node id) where
  acyclic := acyclic_of_holds fun w hw =>
    ⟨(hitems w ((holds_list_iff hnode).1 hw)).1.acyclic, (hitems w ((holds_list_iff hnode).1 hw)).2⟩
  typeless := typeless_of_holds (by simp) fun w hw =>
    (hitems w ((holds_list_iff hnode).1 hw)).1.typeless
  observed hint := by
    obtain ⟨e, he⟩ : ∃ e, elementType (g.observeAt [] [] hint.element) hint.element.type? items =
        .ok e := elementType_returns _ fun w hw => (hitems w hw).1.observed hint.element
    exact ⟨.sequence e, by rw [observeAt_list hnode hitems, listType, Step.bind_of_ok he]⟩

end Lists

/-! ## 3. Plain objects -/

section Objects

variable {entries : Entries Value} (hnode : g.node? id = some (.object .plain entries))

include hnode

theorem holds_object_iff {w : Value} : g.Holds (.node id) w ↔ ∃ e ∈ entries, e.2 = w := by
  unfold Graph.Holds Graph.held
  simp only [hnode, List.mem_map]

variable (hplain : g.description? entries = none)
  (hentries : ∀ e ∈ entries, ProperName e.1 ∧ g.Clear e.2 ∧ ¬ g.Reaches e.2 (.node id))

include hplain hentries

/-- **A plain object is observed by its entries.** -/
theorem observeAt_object (hint : Hint) : g.observeAt [] [] hint (.node id) =
    tableType (fun hint w => g.observeAt [] [] hint w) hint entries := by
  have hdescribing : g.describing .plain entries = entries := rfl
  rw [observeAt_node g _ List.not_mem_nil fun _ _ => List.not_mem_nil]
  unfold Graph.nodeType
  simp only [hnode, hdescribing, hplain]
  exact tableType_congr hint fun e he hint =>
    observeAt_inside (hentries e he).2.1.acyclic (hentries e he).2.2 hint

/-- **A plain object of clear values is clear.** -/
theorem Graph.clear_object : g.Clear (.node id) where
  acyclic := acyclic_of_holds fun w hw => by
    obtain ⟨e, he, rfl⟩ := (holds_object_iff hnode).1 hw
    exact ⟨(hentries e he).2.1.acyclic, (hentries e he).2.2⟩
  typeless := typeless_of_holds (by simp) fun w hw => by
    obtain ⟨e, he, rfl⟩ := (holds_object_iff hnode).1 hw
    exact (hentries e he).2.1.typeless
  observed hint := by
    rw [observeAt_object hnode hplain hentries]
    exact tableType_returns hint fun e he => ⟨(hentries e he).1, (hentries e he).2.1.observed⟩

theorem looksRecord_object : g.looksRecord (.node id) = true := by
  obtain ⟨t, ht⟩ := (Graph.clear_object hnode hplain hentries).observed (.type TypeSpec.emptyRecord)
  have htable := ht
  rw [observeAt_object hnode hplain hentries] at htable
  rcases tableType_eq_ok htable with ⟨_, out, rfl, _⟩ | ⟨hsort, _⟩
  · exact looksRecord_iff.2 ⟨_, _, ht⟩
  · exact absurd rfl hsort

theorem fieldAt_object (name : String) : g.fieldAt (.node id) name = valueAt entries name := by
  unfold Graph.fieldAt
  rw [if_pos (looksRecord_object hnode hplain hentries), listed_of_object hnode]

end Objects

/-! ## 4. Sheets

A sheet is a plain object of values without parts and of lists of such values. -/

/-- A value without parts that is no type and can be observed. -/
structure Graph.Atom (v : Value) : Prop where
  leaf : v.isContainer = false
  typeless : ∀ t, v ≠ .type t
  observed : ∃ t, leafType v = .ok t

theorem Graph.Atom.clear {v : Value} (h : Graph.Atom v) : g.Clear v :=
  clear_leaf h.leaf h.typeless h.observed

/-- A value without parts, or a list of such values. -/
inductive Graph.Cell (g : Graph) : Value → Prop
  | atom {v : Value} : Graph.Atom v → Cell g v
  | list {id : Nat} {items : List Value} : g.node? id = some (.list items) →
      (∀ w ∈ items, Graph.Atom w) → Cell g (.node id)

/-- A list of values without parts is observed by these. -/
theorem observeAt_atoms {items : List Value} (hnode : g.node? id = some (.list items))
    (hitems : ∀ w ∈ items, Graph.Atom w) (hint : Hint) :
    g.observeAt [] [] hint (.node id) = listType (fun _ w => leafType w) hint items := by
  rw [observeAt_list hnode fun w hw => ⟨(hitems w hw).clear, not_reaches_of_leaf (hitems w hw).leaf⟩]
  exact listType_congr hint fun w hw hint => observeAt_leaf g [] [] hint (hitems w hw).leaf

theorem Graph.Cell.clear {v : Value} (h : g.Cell v) : g.Clear v := by
  cases h with
  | atom h => exact h.clear
  | list hnode hitems =>
      exact clear_list hnode fun w hw =>
        ⟨(hitems w hw).clear, not_reaches_of_leaf (hitems w hw).leaf⟩

/-- A node that is a sheet. -/
structure Graph.Sheet (g : Graph) (id : Nat) (entries : Entries Value) : Prop where
  node : g.node? id = some (.object .plain entries)
  undescribed : g.description? entries = none
  proper : ∀ e ∈ entries, ProperName e.1
  cells : ∀ e ∈ entries, g.Cell e.2

namespace Graph.Sheet

variable {entries : Entries Value} (h : g.Sheet id entries)

include h

theorem entries_clear : ∀ e ∈ entries,
    ProperName e.1 ∧ g.Clear e.2 ∧ ¬ g.Reaches e.2 (.node id) := by
  intro e he
  refine ⟨h.proper e he, (h.cells e he).clear, ?_⟩
  have hcell := h.cells e he
  generalize e.2 = v at hcell ⊢
  cases hcell with
  | atom hatom => exact not_reaches_of_leaf hatom.leaf
  | @list other items hnode hitems =>
      refine not_reaches_list hnode ?_ fun w hw => (hitems w hw).leaf
      rintro rfl
      cases h.node.symm.trans hnode

theorem observeAt (hint : Hint) : g.observeAt [] [] hint (.node id) =
    tableType (fun hint w => g.observeAt [] [] hint w) hint entries :=
  observeAt_object h.node h.undescribed h.entries_clear hint

theorem looksRecord : g.looksRecord (.node id) = true :=
  looksRecord_object h.node h.undescribed h.entries_clear

theorem fieldAt (name : String) : g.fieldAt (.node id) name = valueAt entries name :=
  fieldAt_object h.node h.undescribed h.entries_clear name

/-- **A sheet is a payload value.** -/
theorem tame : g.Tame (.node id) :=
  (clear_object h.node h.undescribed h.entries_clear).tame

end Graph.Sheet

end SchemaFlow
