import SchemaFlow.Proofs.Observation.Weakening

/-!
# What makes an observation fail

An observation builds types with checked constructors, and some values make them refuse: an object
of a class whose name is blank, an array that describes itself with a broken size, a record with a
field under the empty name. `Graph.Culprit` lists these values. A value is `Graph.Harmless` when an
observation meets none of them in it and no map is inside one of its own keys; then it can be
observed under every hint that names no ancestor, whatever cycles it has
(`Graph.Harmless.observe`).

The proof goes down the parts as an observation does. What it is inside of, keys of maps apart, does
not matter, since there is nothing that must not be met.
-/

namespace SchemaFlow

namespace Graph

/-! ## 1. Culprits -/

/-- The name by which an object is seen where nothing is known of its inside. -/
def nameSeen (g : Graph) : Value → String
  | .foreign className => className
  | .founder (.buffer className) => className
  | v => g.label v

/-- The element kind of an array that describes itself. -/
def describedKind? (dtype : String) : Option ScalarKind :=
  (ScalarKind.ofName? dtype).or (Entries.find? elementKinds dtype.toLower)

/-- An object describes itself as an array. -/
def Describes (g : Graph) (v : Value) (dtype : String) (shape : List (Option Float)) : Prop :=
  ∃ id lineage entries, v = .node id ∧ g.node? id = some (.object lineage entries) ∧
    g.description? (g.describing lineage entries) = some (dtype, shape)

/-- What makes an observation fail by itself. -/
inductive Culprit (g : Graph) (v : Value) : Prop
  /-- the class of an object has a blank name -/
  | label : v.isObject = true → Text.isBlankText (g.nameSeen v) = true → Culprit g v
  /-- an array describes itself with a size above zero that is not whole -/
  | size {dtype : String} {shape : List (Option Float)} {x : Float} : g.Describes v dtype shape →
      (describedKind? dtype).isSome = true → some x ∈ shape → 0 < x →
      Decimal.positiveInteger? x = none → Culprit g v
  /-- an array describes its elements by a name that all objects know -/
  | kind {dtype : String} {shape : List (Option Float)} : g.Describes v dtype shape →
      dtype.toLower = "constructor" ∨ dtype.toLower = ancestorName → Culprit g v
  /-- a table has an entry under the empty name -/
  | emptyName {entries : Entries Value} {w : Value} : g.form v = .table entries →
      ("", w) ∈ entries → w.isAbsent = false → Culprit g v
  /-- an entry of a table becomes the ancestor of the others, one of which has a name that an
      ancestor keeps -/
  | ancestor {entries : Entries Value} : g.form v = .table entries → ¬ Storable entries → Culprit g v
  /-- the founder of addresses does not list its parts -/
  | addresses : v = .founder (.foreign "URL") → Culprit g v

/-- A value is another, or an observation may look into it on its way through the other. -/
abbrev Within (g : Graph) : Value → Value → Prop :=
  Relation.ReflTransGen fun v w => w ∈ (g.form v).parts

/-- An observation of a value meets nothing that makes it fail. -/
structure Harmless (g : Graph) (v : Value) : Prop where
  clean : ∀ w, g.Within v w → ¬ g.Culprit w
  /-- no map is reached from one of its own keys -/
  keys : ∀ id entries, g.Reaches v (.node id) → g.node? id = some (.map entries) →
    ∀ e ∈ entries, ¬ g.Reaches e.1 (.node id)

end Graph

variable {g : Graph} {v : Value}

/-- Nothing makes the observation of a value fail that has a name, does not describe itself and, where
    it is a table, has entries that can be stored as fields. -/
theorem Graph.not_culprit (hname : v.isObject = true → Text.isBlankText (g.nameSeen v) = false)
    (hplain : ∀ dtype shape, ¬ g.Describes v dtype shape)
    (htable : ∀ entries, g.form v = .table entries →
      Storable entries ∧ ∀ w, ("", w) ∈ entries → w.isAbsent = true)
    (hlisted : v ≠ .founder (.foreign "URL")) : ¬ g.Culprit v := by
  intro h
  cases h with
  | label hobject hblank =>
      rw [hname hobject] at hblank
      cases hblank
  | size hdescribes => exact hplain _ _ hdescribes
  | kind hdescribes => exact hplain _ _ hdescribes
  | emptyName hform hmem hpresent =>
      rw [(htable _ hform).2 _ hmem] at hpresent
      cases hpresent
  | ancestor hform hstore => exact hstore (htable _ hform).1
  | addresses h => exact hlisted h

theorem reaches_node_of_part {w : Value} (hw : w ∈ (g.form v).parts) {id : Nat}
    (h : g.Reaches w (.node id)) : g.Reaches v (.node id) := by
  rcases reaches_or_leaf_of_mem_parts hw h with hreach | hleaf
  · exact hreach
  · cases hleaf

namespace Graph.Harmless

theorem part (h : g.Harmless v) {w : Value} (hw : w ∈ (g.form v).parts) : g.Harmless w where
  clean x hx := h.clean x (.head hw hx)
  keys id entries hreach := h.keys id entries (reaches_node_of_part hw hreach)

theorem not_culprit (h : g.Harmless v) : ¬ g.Culprit v := h.clean v .refl

/-- Where there are no maps a value is harmless if nothing makes its own observation fail, and its
    parts are harmless. -/
theorem of_parts (hown : ¬ g.Culprit v) (hmaps : ∀ id entries, g.node? id ≠ some (.map entries))
    (hparts : ∀ w ∈ (g.form v).parts, g.Harmless w) : g.Harmless v where
  clean w hw := by
    rcases Relation.ReflTransGen.cases_head hw with rfl | ⟨x, hx, hwithin⟩
    · exact hown
    · exact (hparts x hx).clean w hwithin
  keys id entries _ hnode := absurd hnode (hmaps id entries)

end Graph.Harmless

/-! ## 2. Values without parts -/

theorem handle_returns {label : String} (h : Text.isBlankText label ≠ true) :
    ∃ t, Graph.handle label = .ok t := by
  unfold Graph.handle
  rw [if_neg h]
  exact ⟨_, rfl⟩

theorem shapeDimensions_returns : ∀ (shape : List (Option Float)) (index : Nat),
    (∀ x, some x ∈ shape → 0 < x → Decimal.positiveInteger? x ≠ none) →
      ∃ ds, shapeDimensions index shape = .ok ds
  | [], _, _ => ⟨[], rfl⟩
  | none :: shape, index, h => by
      rw [shapeDimensions]
      exact shapeDimensions_returns shape (index + 1) fun x hx => h x (List.mem_cons_of_mem _ hx)
  | some x :: shape, index, h => by
      have hx := h x List.mem_cons_self
      obtain ⟨ds, hds⟩ := shapeDimensions_returns shape (index + 1) fun y hy =>
        h y (List.mem_cons_of_mem _ hy)
      unfold shapeDimensions
      by_cases hpositive : 0 < x
      · rw [if_pos hpositive]
        cases hn : Decimal.positiveInteger? x with
        | none => exact absurd hn (hx hpositive)
        | some n =>
            dsimp only
            rw [Step.bind_of_ok hds]
            exact ⟨_, rfl⟩
      · rw [if_neg hpositive, Step.bind_of_ok hds]
        exact ⟨_, rfl⟩

/-- An array that describes itself is observed unless its object is a culprit. -/
theorem describedType_returns {dtype : String} {shape : List (Option Float)} (h : ¬ g.Culprit v)
    (hv : g.Describes v dtype shape) : ∃ t, describedType (g.label v) dtype shape = .ok t := by
  have hlabel : Text.isBlankText (g.label v) ≠ true := by
    obtain ⟨id, _, _, rfl, _⟩ := hv
    exact fun hblank => h (.label rfl hblank)
  unfold describedType
  cases hkind : Graph.describedKind? dtype with
  | some kind =>
      have hsizes : ∀ x, some x ∈ shape → 0 < x → Decimal.positiveInteger? x ≠ none :=
        fun x hx hpositive hnone => h (.size hv (by rw [hkind]; rfl) hx hpositive hnone)
      obtain ⟨ds, hds⟩ := shapeDimensions_returns shape 0 hsizes
      unfold Graph.describedKind? at hkind
      rw [hkind]
      dsimp only
      rw [Step.bind_of_ok hds]
      exact ⟨_, rfl⟩
  | none =>
      have hconstructor : dtype.toLower ≠ "constructor" := fun hname => h (.kind hv (Or.inl hname))
      have hancestor : dtype.toLower ≠ ancestorName := fun hname => h (.kind hv (Or.inr hname))
      unfold Graph.describedKind? at hkind
      rw [hkind]
      dsimp only
      rw [if_neg hconstructor, if_neg hancestor]
      exact handle_returns hlabel

theorem leafType_returns (h : ¬ g.Culprit v) (hv : v.isContainer = false) :
    ∃ t, leafType v = .ok t := by
  cases v with
  | foreign className => exact handle_returns fun hblank => h (.label rfl hblank)
  | fieldTable fs ancestor => cases hv
  | drop => cases hv
  | sizeList ds => cases hv
  | founder f => cases hv
  | node id => cases hv
  | _ => exact ⟨_, rfl⟩

theorem founderType_returns {f : Family} (h : ¬ g.Culprit (.founder f)) (hf : f ≠ .list)
    (hform : g.founderForm f = .other) : ∃ t, g.observe none (.founder f) = .ok t := by
  unfold Graph.observe
  rw [observeAt_founder g [] [] _ hf]
  unfold Graph.founderType
  unfold Graph.founderForm at hform
  rw [if_neg hf] at hform
  cases hparts : g.partsOf (.founder f) with
  | error e =>
      -- only the founder of addresses does not list its parts
      unfold Graph.partsOf at hparts
      split at hparts
      · cases ‹Value.founder f = .absent›
      · cases ‹Value.founder f = .hole›
      · cases ‹Value.founder f = .null›
      · exact absurd (.addresses ‹_›) h
      · cases hparts
  | ok entries =>
      rw [hparts] at hform
      dsimp only at hform
      split at hform
      · cases hform
      · rename_i hplain
        rw [Step.bind_of_ok rfl, if_neg hplain]
        cases f with
        | buffer className => exact handle_returns fun hblank => h (.label rfl hblank)
        | _ => exact ⟨_, rfl⟩

theorem nodeType_returns {id : Nat} (h : ¬ g.Culprit (.node id)) (hform : g.nodeForm id = .other) :
    ∃ t, g.observe none (.node id) = .ok t := by
  have hlabel : Text.isBlankText (g.label (.node id)) ≠ true := fun hblank => h (.label rfl hblank)
  unfold Graph.observe
  rw [observeAt_node g _ List.not_mem_nil fun _ _ => List.not_mem_nil]
  unfold Graph.nodeType
  unfold Graph.nodeForm at hform
  cases hnode : g.node? id with
  | none =>
      rw [hnode] at hform
      cases hform
  | some n =>
      rw [hnode] at hform
      cases n with
      | list items => cases hform
      | map entries => cases hform
      | object lineage entries =>
          dsimp only at hform ⊢
          cases hdescribed : g.description? (g.describing lineage entries) with
          | some described =>
              exact describedType_returns h ⟨id, lineage, entries, rfl, hnode, hdescribed⟩
          | none =>
              rw [hdescribed] at hform
              rcases lineage with _ | _ | _ | (_ | _)
              · cases hform
              · cases hform
              · exact handle_returns hlabel
              · cases hform
              · exact handle_returns hlabel

/-- A value that is seen in one way only is seen unless it is a culprit. -/
theorem observe_returns_of_other (h : ¬ g.Culprit v) (hform : g.form v = .other) :
    ∃ t, g.observe none v = .ok t := by
  cases v with
  | fieldTable fs ancestor =>
      cases ancestor with
      | none => cases hform
      | some a =>
          unfold Graph.observe
          rw [Graph.observeAt]
          exact handle_returns fun hblank => h (.label rfl hblank)
  | founder f =>
      by_cases hf : f = .list
      · subst hf
        cases hform
      · exact founderType_returns h hf hform
  | node id => exact nodeType_returns h hform
  | drop => cases hform
  | sizeList ds => cases hform
  | _ =>
      unfold Graph.observe
      rw [observeAt_leaf g [] [] _ rfl]
      exact leafType_returns h rfl

/-- Values without parts are harmless, unless they are objects. -/
theorem Graph.harmless_leaf (hv : v.isContainer = false) (hobject : v.isObject = false) :
    g.Harmless v where
  clean w hw := by
    have hsame : w = v := by
      rcases Relation.ReflTransGen.cases_head hw with h | ⟨x, hx, _⟩
      · exact h.symm
      · rw [form_parts_of_leaf hv] at hx
        cases hx
    subst hsame
    refine Graph.not_culprit (fun h => ?_) ?_ (fun entries hform => ?_) ?_
    · rw [hobject] at h
      cases h
    · rintro dtype shape ⟨id, _, _, rfl, _⟩
      cases hv
    · have hnone := form_parts_of_leaf (g := g) hv
      rw [hform] at hnone
      obtain rfl : entries = [] := List.map_eq_nil_iff.1 hnone
      exact ⟨Or.inl fun e he => absurd he List.not_mem_nil, fun w hw => absurd hw List.not_mem_nil⟩
    · rintro rfl
      cases hv
  keys id entries hreach := by
    obtain rfl := eq_of_reaches (Graph.held_leaf hv) hreach
    cases hv

/-! ## 3. Hints -/

/-- A hint that names no ancestor: none, or a type without one. -/
inductive Hint.Plain : Hint → Prop
  | none : Plain .none
  | type {t : TypeSpec} : t.Ancestorless → Plain (.type t)

namespace Hint.Plain

variable {hint : Hint}

theorem element (h : hint.Plain) : hint.element.Plain := by
  cases h with
  | none => exact .none
  | @type t ht =>
      cases t with
      | sequence e => exact .type (ht.part (.element e))
      | _ => exact .none

theorem value (h : hint.Plain) : hint.value.Plain := by
  cases h with
  | none => exact .none
  | @type t ht =>
      cases t with
      | mapping k e => exact .type (ht.part (.value k e))
      | _ => exact .none

theorem field (h : hint.Plain) (hsort : hint.sort? = some "record") (name : String) :
    (Hint.part name (Hint.part "fields" hint)).Plain := by
  cases h with
  | none => cases hsort
  | @type t ht =>
      cases t with
      | record fs ancestor =>
          obtain rfl := ht.eq_none
          rw [part_fields_ancestorless]
          cases hfind : Entries.find? fs name with
          | none => exact .none
          | some u => exact .type (ht.part (TypeSpec.partOf_of_find? _ hfind))
      | _ => simp [sort?, TypeSpec.sortName] at hsort

theorem keyKind_returns (h : hint.Plain) (kinds : List ScalarKind) :
    ∃ kind, keyKind hint kinds = .ok kind := by
  unfold keyKind
  split
  · exact ⟨_, rfl⟩
  · split
    · cases h with
      | none => exact ⟨_, rfl⟩
      | @type t ht => cases t <;> exact ⟨_, rfl⟩
    · exact ⟨_, rfl⟩

theorem ofType? {t : Option TypeSpec} (h : ∀ u, t = some u → u.Ancestorless) :
    (Hint.ofType? t).Plain := by
  cases t with
  | none => exact .none
  | some u => exact .type (h u rfl)

end Hint.Plain

/-! ## 4. The way down -/

theorem keyKinds_returns {keyObs : Value → Except Fault TypeSpec} : ∀ {keys : List Value}
    (kinds : List ScalarKind), (∀ w ∈ keys, ∃ t, keyObs w = .ok t) →
      ∃ kinds', keyKinds keyObs kinds keys = .ok kinds'
  | [], kinds, _ => ⟨kinds, rfl⟩
  | w :: keys, kinds, h => by
      obtain ⟨⟨t, ht⟩, hkeys⟩ := List.forall_mem_cons.1 h
      rw [keyKinds, Step.bind_of_ok ht]
      cases t <;> exact keyKinds_returns _ hkeys

/-- A form is shown when its parts can be observed. -/
theorem Form.shown_returns {obs : Hint → Value → Except Fault TypeSpec}
    {keyObs : Value → Except Fault TypeSpec} {hint : Hint} (hhint : hint.Plain)
    (h : ¬ g.Culprit v)
    (hobs : ∀ w ∈ (g.form v).parts, ∀ hint, Hint.Plain hint → ∃ t, obs hint w = .ok t)
    (hkeys : ∀ entries, g.form v = .map entries → ∀ e ∈ entries, ∃ t, keyObs e.1 = .ok t) :
    ∃ t, (g.form v).shown obs keyObs (g.observe none v) hint = .ok t := by
  cases hform : g.form v with
  | type t => exact ⟨t, rfl⟩
  | scalar k => exact ⟨_, rfl⟩
  | list items =>
      rw [hform] at hobs
      exact listType_returns fun w hw => hobs w hw _ hhint.element
  | table entries =>
      rw [hform] at hobs
      have hentry : ∀ e ∈ entries, ∀ hint, Hint.Plain hint → ∃ t, obs hint e.2 = .ok t :=
        fun e he => hobs e.2 (List.mem_map_of_mem he)
      by_cases hsort : hint.sort? = some "record"
      · have hstore : Storable entries := by
          by_contra hnot
          exact h (.ancestor hform hnot)
        refine tableType_returns_of_fields hsort hstore fun e he hpresent => ?_
        refine ⟨?_, hentry e he _ (hhint.field hsort e.1)⟩
        intro hname
        obtain ⟨name, w⟩ := e
        obtain rfl : name = "" := hname
        exact h (.emptyName hform he hpresent)
      · exact tableType_returns_of_contents hsort fun e he => hentry e he _ hhint.value
  | map entries =>
      rw [hform] at hobs
      have hkey : ∀ w ∈ entries.map Prod.fst, ∃ t, keyObs w = .ok t := by
        intro w hw
        obtain ⟨e, he, rfl⟩ := List.mem_map.1 hw
        exact hkeys entries hform e he
      obtain ⟨kinds, hkinds⟩ := keyKinds_returns [] hkey
      refine mapType_returns hkinds (fun w hw => ?_) (hhint.keyKind_returns kinds)
      exact hobs w (List.mem_append_right _ hw) _ hhint.value
  | other => exact observe_returns_of_other h hform

/-- Only a container of the graph has parts that have parts. -/
theorem leaf_or_node_of_mem_parts {w : Value} (hw : w ∈ (g.form v).parts) :
    w.isContainer = false ∨ ∃ id, v = .node id ∧ id < g.size := by
  rcases holds_or_leaf_of_mem_parts hw with hholds | hleaf
  · rcases hholds.cases with hnode | ⟨t, rfl⟩
    · exact Or.inr hnode
    · exact Or.inl rfl
  · exact Or.inl hleaf

/-- **A harmless value can be observed**, whatever it is inside of, but for the keys of a map that it
    leads back to. -/
theorem observeAt_returns (g : Graph) (keyed visiting : List Nat) {v : Value} (h : g.Harmless v)
    (hkeyed : ∀ id ∈ keyed, ¬ g.Reaches v (.node id)) {hint : Hint} (hhint : hint.Plain) :
    ∃ t, g.observeAt keyed visiting hint v = .ok t := by
  by_cases hnew : ∀ id ∈ visiting, v ≠ .node id
  · have hmap : ∀ id ∈ keyed, v = .node id → ∀ entries, g.form v ≠ .map entries := by
      rintro id hid rfl
      exact absurd .refl (hkeyed id hid)
    rw [observeAt_form hnew hmap hint]
    refine Form.shown_returns hhint h.not_culprit (fun w hw hint hhint => ?_)
      fun entries hform e he => ?_
    · rcases leaf_or_node_of_mem_parts hw with hleaf | ⟨id, rfl, hid⟩
      · rw [observeAt_leaf g _ _ _ hleaf]
        exact leafType_returns (h.part hw).not_culprit hleaf
      · have hfresh : id ∉ visiting := fun hmem => hnew id hmem rfl
        have hless : g.unvisited (id :: visiting) < g.unvisited visiting :=
          Graph.unvisited_cons_lt hid hfresh
        exact observeAt_returns g keyed (id :: visiting) (h.part hw)
          (fun other hother hreach => hkeyed other hother (reaches_node_of_part hw hreach)) hhint
    · have hw : e.1 ∈ (g.form v).parts := by
        rw [hform]
        exact List.mem_append_left _ (List.mem_map_of_mem he)
      rcases leaf_or_node_of_mem_parts hw with hleaf | ⟨id, rfl, hid⟩
      · rw [observeAt_leaf g _ _ _ hleaf]
        exact leafType_returns (h.part hw).not_culprit hleaf
      · have hfresh : id ∉ keyed := fun hmem => hkeyed id hmem .refl
        have hless : g.unvisited (id :: keyed) < g.unvisited keyed :=
          Graph.unvisited_cons_lt hid hfresh
        refine observeAt_returns g (id :: keyed) [] (h.part hw) (fun other hother hreach => ?_) .none
        rcases List.mem_cons.1 hother with rfl | hother
        · exact h.keys other entries .refl (node?_of_nodeForm hform) e he hreach
        · exact hkeyed other hother (reaches_node_of_part hw hreach)
  · obtain ⟨id, hmem, rfl⟩ : ∃ id ∈ visiting, v = .node id := by simpa using hnew
    rw [observeAt_visited g keyed hint hmem]
    exact handle_returns fun hblank => h.not_culprit (.label rfl hblank)
termination_by (g.unvisited keyed, g.unvisited visiting)
decreasing_by
  · exact Prod.Lex.right _ hless
  · exact Prod.Lex.left _ _ hless

/-- **A harmless value can be observed** under every type without ancestors, and under none. -/
theorem Graph.Harmless.observe (h : g.Harmless v) {hint : Option TypeSpec}
    (hhint : ∀ t, hint = some t → t.Ancestorless) : ∃ t, g.observe hint v = .ok t :=
  observeAt_returns g [] [] h (fun _ hid => absurd hid List.not_mem_nil) (.ofType? hhint)

end SchemaFlow
