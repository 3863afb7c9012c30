import SchemaFlow.Contract.Basic
import SchemaFlow.Proofs.Entries.Ordered
import SchemaFlow.Proofs.Steps

/-!
# Contracts read a second time

A contract that was read from a declaration is settled: every table in it, at any depth, has distinct
and proper names in their order. A settled contract is a declaration too. Read as one, whatever it is
called, it is not refused and gives the same contract.

* `Graph.settled_contractAt`: what is read is settled.
* `Graph.contractOf_addContract`: what is settled is read back unchanged.
-/

namespace SchemaFlow

/-! ## 1. Settled productions and contracts -/

namespace Production

/-- What the reading of productions promises of the fields of a modification, at every depth. -/
inductive Settled : Production → Prop
  | type (t : TypeSpec) : Settled (.type t)
  | set (t : TypeSpec) : Settled (.set t)
  | drop : Settled .drop
  | modify {fields : List (String × Production)} :
      Entries.Settled fields → (∀ e ∈ fields, Settled e.2) → Settled (.modify fields)

end Production

/-- What the reading of productions promises of a table of them. -/
structure Produced.Settled (ps : Produced) : Prop where
  table : Entries.Settled ps
  productions : ∀ e ∈ ps, e.2.Settled

theorem Produced.Settled.nil : Produced.Settled [] :=
  ⟨Entries.Settled.nil, fun _ h => absurd h List.not_mem_nil⟩

theorem Produced.Settled.insert {ps : Produced} (h : ps.Settled) {name : String} {p : Production}
    (hn : ProperName name) (hp : p.Settled) : Produced.Settled (ps.insert name p) where
  table := h.table.insert hn p
  productions e he := by
    rcases Entries.mem_insert he with he | rfl
    · exact h.productions e he
    · exact hp

theorem Produced.Settled.store {f f' : Filling Production} (h : Produced.Settled f.entries)
    {kept : List String} {name : String} {p : Production} (hname : name ≠ "") (hp : p.Settled)
    (hstore : f.store kept name p = some f') : Produced.Settled f'.entries := by
  refine ⟨h.table.store hname hstore, fun e he => ?_⟩
  by_cases hn : name = ancestorName
  · subst hn
    rw [Filling.store_ancestor] at hstore
    obtain rfl := Option.some.inj hstore
    exact h.productions e he
  · rw [(Filling.store_entry hn hstore).1] at he
    rcases Entries.mem_insert he with he | rfl
    · exact h.productions e he
    · exact hp

theorem Production.settled_modify_iff {fields : Produced} :
    (Production.modify fields).Settled ↔ fields.Settled := by
  constructor
  · intro h
    cases h with
    | modify htable hfields => exact ⟨htable, hfields⟩
  · exact fun h => .modify h.table h.productions

mutual

/-- Whether a production is settled. -/
def Production.isSettled : Production → Bool
  | .modify fields => decide (Entries.Settled fields) && fieldsSettled fields
  | _ => true

/-- Whether the productions of fields are settled. -/
def Production.fieldsSettled : List (String × Production) → Bool
  | [] => true
  | (_, p) :: rest => isSettled p && fieldsSettled rest

end

mutual

theorem Production.isSettled_iff : ∀ p : Production, p.isSettled = true ↔ p.Settled
  | .type t => ⟨fun _ => .type t, fun _ => rfl⟩
  | .set t => ⟨fun _ => .set t, fun _ => rfl⟩
  | .drop => ⟨fun _ => .drop, fun _ => rfl⟩
  | .modify fields => by
      rw [isSettled, Bool.and_eq_true, decide_eq_true_eq, fieldsSettled_iff fields,
        settled_modify_iff]
      exact ⟨fun h => ⟨h.1, h.2⟩, fun h => ⟨h.table, h.productions⟩⟩

theorem Production.fieldsSettled_iff : ∀ fields : List (String × Production),
    fieldsSettled fields = true ↔ ∀ e ∈ fields, e.2.Settled
  | [] => by simp [fieldsSettled]
  | (_, p) :: rest => by
      rw [fieldsSettled, Bool.and_eq_true, isSettled_iff p, fieldsSettled_iff rest,
        List.forall_mem_cons]

end

instance (ps : Produced) : Decidable ps.Settled :=
  decidable_of_iff (Entries.Settled ps ∧ Production.fieldsSettled ps = true)
    ⟨fun h => ⟨h.1, (Production.fieldsSettled_iff ps).1 h.2⟩,
      fun h => ⟨h.table, (Production.fieldsSettled_iff ps).2 h.productions⟩⟩

/-- What the reading of a declaration promises of a contract. -/
structure Contract.Settled (c : Contract) : Prop where
  fitRequires : Entries.Settled c.fitRequires
  transformRequires : Entries.Settled c.transformRequires
  fitParameters : Entries.Settled c.fitParameters
  fittedState : Entries.Settled c.fittedState
  produced : c.produced.Settled

instance (c : Contract) : Decidable c.Settled :=
  decidable_of_iff (Entries.Settled c.fitRequires ∧ Entries.Settled c.transformRequires ∧
      Entries.Settled c.fitParameters ∧ Entries.Settled c.fittedState ∧ c.produced.Settled)
    ⟨fun h => ⟨h.1, h.2.1, h.2.2.1, h.2.2.2.1, h.2.2.2.2⟩,
      fun h => ⟨h.fitRequires, h.transformRequires, h.fitParameters, h.fittedState, h.produced⟩⟩

/-! ## 2. What is read is settled -/

namespace Graph

variable {g : Graph}

theorem settled_fillSchema {path : String} : ∀ {es : Entries Value} {f f' : Filling TypeSpec},
    Entries.Settled f.entries → fillSchema path f es = .ok f' → Entries.Settled f'.entries
  | [], _, _, hf, h => by
      cases h
      exact hf
  | (key, v) :: es, f, f', hf, h => by
      rw [fillSchema] at h
      split at h
      · cases h
      · rename_i hkey
        obtain ⟨t, -, hmore⟩ := Step.bind_eq_ok.1 h
        cases hstore : f.store t.partNames key t with
        | none =>
            rw [hstore] at hmore
            cases hmore
        | some next =>
            rw [hstore] at hmore
            exact settled_fillSchema (hf.store hkey hstore) hmore

theorem settled_schemaOf {v : Value} {path : String} {s : Schema} (h : g.schemaOf v path = .ok s) :
    Entries.Settled s := by
  obtain ⟨f, hf, hs⟩ := Step.bind_eq_ok.1 h
  cases hs
  unfold filledSchemaOf at hf
  split at hf
  · obtain ⟨es, -, hfill⟩ := Step.bind_eq_ok.1 hf
    exact settled_fillSchema Entries.Settled.nil hfill
  · cases hf

section Produced

variable {sub : Value → String → Except Fault Produced}

theorem settled_productionFrom (hsub : ∀ w at' ps, sub w at' = .ok ps → ps.Settled) {v : Value}
    {path : String} {p : Production} (h : g.productionFrom sub v path = .ok p) : p.Settled := by
  unfold productionFrom at h
  split at h
  · cases h
    exact .type _
  · split at h
    · cases h
      exact .set _
    · cases h
      exact .drop
    · obtain ⟨ps, hps, hp⟩ := Step.bind_eq_ok.1 h
      cases hp
      exact Production.settled_modify_iff.2 (hsub _ _ _ hps)
    · cases h

theorem settled_fillProduced (hsub : ∀ w at' ps, sub w at' = .ok ps → ps.Settled) {path : String} :
    ∀ {es : Entries Value} {f f' : Filling Production}, Produced.Settled f.entries →
      g.fillProduced sub path f es = .ok f' → Produced.Settled f'.entries
  | [], _, _, hf, h => by
      cases h
      exact hf
  | (key, v) :: es, f, f', hf, h => by
      rw [fillProduced] at h
      split at h
      · cases h
      · rename_i hkey
        obtain ⟨p, hp, hmore⟩ := Step.bind_eq_ok.1 h
        cases hstore : f.store (g.keptBy v p) key p with
        | none =>
            rw [hstore] at hmore
            cases hmore
        | some next =>
            rw [hstore] at hmore
            exact settled_fillProduced hsub
              (hf.store hkey (settled_productionFrom hsub hp) hstore) hmore

end Produced

theorem settled_producedAt {visiting : List Nat} {v : Value} {path : String} {ps : Produced}
    (h : g.producedAt visiting v path = .ok ps) : ps.Settled := by
  -- the walk goes into ever fewer containers
  induction hn : g.unvisited visiting using Nat.strongRecOn generalizing visiting v path ps with
  | _ n ih =>
      unfold producedAt at h
      split at h
      · cases h
      · split at h
        · rename_i id
          split at h
          · cases h
          · rename_i hnew
            split at h
            · cases h
              exact .nil
            · rename_i node hnode
              obtain ⟨f, hf, hps⟩ := Step.bind_eq_ok.1 h
              cases hps
              refine settled_fillProduced (fun w at' ps hw => ?_) .nil hf
              exact ih _ (hn ▸ unvisited_cons_lt (lt_size_of_node? hnode) hnew) hw rfl
        · obtain ⟨es, -, hfill⟩ := Step.bind_eq_ok.1 h
          obtain ⟨f, hf, hps⟩ := Step.bind_eq_ok.1 hfill
          cases hps
          exact settled_fillProduced (fun w at' ps hw => by cases hw) .nil hf

theorem settled_schemaSlot {v : Value} {name : String} {slot : Slot} {s : Schema}
    (h : g.schemaSlot v name slot = .ok s) : Entries.Settled s := by
  obtain ⟨w, -, hw⟩ := Step.bind_eq_ok.1 h
  split at hw
  · cases hw
    exact .nil
  · cases hw
    exact .nil
  · exact settled_schemaOf hw

theorem settled_producedSlot {v : Value} {name : String} {ps : Produced}
    (h : g.producedSlot v name = .ok ps) : ps.Settled := by
  obtain ⟨w, -, hw⟩ := Step.bind_eq_ok.1 h
  split at hw
  · cases hw
    exact .nil
  · cases hw
    exact .nil
  · exact settled_producedAt hw

/-- **A contract that is read is settled.** -/
theorem settled_contractAt {v : Value} {name : String} {place : Option String} {c : Contract}
    (h : g.contractAt v name place = .ok c) : c.Settled := by
  unfold contractAt at h
  split at h
  · cases h
    exact ⟨.nil, .nil, .nil, .nil, .nil⟩
  · split at h
    · cases h
    · obtain ⟨es, -, hslots⟩ := Step.bind_eq_ok.1 h
      split at hslots
      · cases hslots
      · obtain ⟨fitRequires, hfit, h₁⟩ := Step.bind_eq_ok.1 hslots
        obtain ⟨transformRequires, htransform, h₂⟩ := Step.bind_eq_ok.1 h₁
        obtain ⟨fitParameters, hparameters, h₃⟩ := Step.bind_eq_ok.1 h₂
        obtain ⟨fittedState, hstate, h₄⟩ := Step.bind_eq_ok.1 h₃
        obtain ⟨produced, hproduced, hc⟩ := Step.bind_eq_ok.1 h₄
        cases hc
        exact {
          fitRequires := settled_schemaSlot hfit
          transformRequires := settled_schemaSlot htransform
          fitParameters := settled_schemaSlot hparameters
          fittedState := settled_schemaSlot hstate
          produced := settled_producedSlot hproduced }

theorem settled_contractNamed {v name : Value} {c : Contract}
    (h : g.contractNamed v name = .ok c) : c.Settled := by
  unfold contractNamed at h
  split at h
  · exact settled_contractAt h
  · exact settled_contractAt h
  · obtain ⟨shown, -, hc⟩ := Step.bind_eq_ok.1 h
    exact settled_contractAt hc

end Graph

/-! ## 3. A contract as a declaration -/

namespace Graph

/-- All nodes of a graph are kept in another one. -/
def KeptIn (g h : Graph) : Prop := ∀ id n, g.node? id = some n → h.node? id = some n

namespace KeptIn

variable {g h k : Graph}

theorem refl (g : Graph) : g.KeptIn g := fun _ _ hn => hn

theorem trans (hgh : g.KeptIn h) (hhk : h.KeptIn k) : g.KeptIn k :=
  fun id n hn => hhk id n (hgh id n hn)

theorem size_le (hgh : g.KeptIn h) : g.size ≤ h.size := by
  refine Nat.le_of_not_lt fun hlt => ?_
  have hlast : g.node? h.size = some g.nodes[h.size] := Array.getElem?_eq_getElem hlt
  exact absurd (lt_size_of_node? (hgh _ _ hlast)) (Nat.lt_irrefl _)

end KeptIn

theorem keptIn_add (g : Graph) (n : Node) : g.KeptIn (g.add n).1 := by
  intro id m hm
  rw [node?_add, if_neg (Nat.ne_of_lt (lt_size_of_node? hm))]
  exact hm

/-- What stands below all that is visited was not visited. -/
theorem not_visited {bound id : Nat} {visiting : List Nat} (hvisiting : ∀ i ∈ visiting, bound ≤ i)
    (hid : id < bound) : id ∉ visiting :=
  fun hmem => absurd (hvisiting id hmem) (Nat.not_le_of_lt hid)

/-- Inside a further container a lower bound holds. -/
theorem visiting_cons {bound n id : Nat} {visiting : List Nat}
    (hvisiting : ∀ i ∈ visiting, bound ≤ i) (hid : n ≤ id) (hn : n ≤ bound) :
    ∀ i ∈ id :: visiting, n ≤ i :=
  List.forall_mem_cons.2 ⟨hid, fun i hi => Nat.le_trans hn (hvisiting i hi)⟩

theorem node?_add_self (g : Graph) (n : Node) : (g.add n).1.node? g.size = some n := by
  rw [node?_add, if_pos rfl]

end Graph

mutual

/-- A value spells a production; the tables that it consists of stand below `bound`. -/
def Production.Spelt (g : Graph) (bound : Nat) : Production → Value → Prop
  | .type t, v => v = .type t
  | .set t, v => ∃ id lineage, v = .node id ∧ id < bound ∧
      g.node? id = some (.object lineage [("op", .text "set"), ("type", .type t)])
  | .drop, v => v = .drop
  | .modify fields, v => ∃ id lineage table lineage' entries, v = .node id ∧ id < bound ∧
      g.node? id = some (.object lineage [("op", .text "modify"), ("fields", .node table)]) ∧
      table < id ∧ g.node? table = some (.object lineage' entries) ∧
      FieldsSpelt g table fields entries

/-- Entries spell productions under the same names. -/
def Production.FieldsSpelt (g : Graph) (bound : Nat) :
    List (String × Production) → Entries Value → Prop
  | [], entries => entries = []
  | (name, p) :: rest, entries => ∃ v later, entries = (name, v) :: later ∧
      Spelt g bound p v ∧ FieldsSpelt g bound rest later

end

mutual

/-- Adds a production to a graph, sealed. -/
def Production.addTo : Production → Graph → Graph × Value
  | .type t, g => (g, .type t)
  | .set t, g => g.add (.object (.sealed none) [("op", .text "set"), ("type", .type t)])
  | .drop, g => (g, .drop)
  | .modify fields, g =>
    let (g, entries) := addFields fields g
    let (g, table) := g.add (.object (.sealed none) entries)
    g.add (.object (.sealed none) [("op", .text "modify"), ("fields", table)])

/-- Adds the productions of fields to a graph. -/
def Production.addFields : List (String × Production) → Graph → Graph × Entries Value
  | [], g => (g, [])
  | (name, p) :: rest, g =>
    let (g, v) := addTo p g
    let (g, entries) := addFields rest g
    (g, (name, v) :: entries)

end

/-- The slots of a contract as the entries of a declaration. -/
def Contract.slots (c : Contract) (produced : Value) : Entries Value :=
  [(Slot.fitRequires.name, .fieldTable c.fitRequires none),
    (Slot.transformRequires.name, .fieldTable c.transformRequires none),
    (Slot.fitParameters.name, .fieldTable c.fitParameters none),
    (Slot.fittedState.name, .fieldTable c.fittedState none),
    (Slot.producedOrModified.name, produced)]

/-- The slots of a contract whose tables of parameters and of state have ancestors. -/
def Contract.slotsUnder (c : Contract) (parameters state : Option TypeSpec) (produced : Value) :
    Entries Value :=
  [(Slot.fitRequires.name, .fieldTable c.fitRequires none),
    (Slot.transformRequires.name, .fieldTable c.transformRequires none),
    (Slot.fitParameters.name, .fieldTable c.fitParameters parameters),
    (Slot.fittedState.name, .fieldTable c.fittedState state),
    (Slot.producedOrModified.name, produced)]

/-- Adds a contract to a graph, as a sealed declaration. -/
def Graph.addContract (g : Graph) (c : Contract) : Graph × Value :=
  let (g, entries) := Production.addFields c.produced g
  let (g, produced) := g.add (.object (.sealed none) entries)
  g.add (.object (.sealed none) (c.slots produced))

namespace Production

mutual

theorem Spelt.mono {g h : Graph} (hgh : g.KeptIn h) {n m : Nat} (hnm : n ≤ m) :
    ∀ (p : Production) {v : Value}, p.Spelt g n v → p.Spelt h m v
  | .type _, _, hv => hv
  | .set _, _, ⟨id, lineage, hv, hid, hnode⟩ =>
      ⟨id, lineage, hv, Nat.lt_of_lt_of_le hid hnm, hgh _ _ hnode⟩
  | .drop, _, hv => hv
  | .modify fields, _, ⟨id, lineage, table, lineage', entries, hv, hid, hnode, htable, hfields,
      hentries⟩ =>
      ⟨id, lineage, table, lineage', entries, hv, Nat.lt_of_lt_of_le hid hnm, hgh _ _ hnode, htable,
        hgh _ _ hfields, FieldsSpelt.mono hgh (Nat.le_refl table) fields hentries⟩

theorem FieldsSpelt.mono {g h : Graph} (hgh : g.KeptIn h) {n m : Nat} (hnm : n ≤ m) :
    ∀ (fields : List (String × Production)) {entries : Entries Value},
      FieldsSpelt g n fields entries → FieldsSpelt h m fields entries
  | [], _, he => he
  | (_, p) :: rest, _, ⟨v, later, he, hv, hlater⟩ =>
      ⟨v, later, he, Spelt.mono hgh hnm p hv, FieldsSpelt.mono hgh hnm rest hlater⟩

end

/-- What was added spells what it was made of, and nothing else has changed. -/
structure Added (g : Graph) (p : Production) (r : Graph × Value) : Prop where
  kept : g.KeptIn r.1
  spelt : p.Spelt r.1 r.1.size r.2

/-- A table of what is spelt, and a modification that holds it. -/
theorem added_modify {g h : Graph} (hkept : g.KeptIn h) {fields : List (String × Production)}
    {entries : Entries Value} (hspelt : FieldsSpelt h h.size fields entries) (lineage : Lineage) :
    Added g (.modify fields) ((h.add (.object lineage entries)).1.add
      (.object (.sealed none) [("op", .text "modify"), ("fields", .node h.size)])) := by
  have htable := h.keptIn_add (.object lineage entries)
  have hop := (h.add (.object lineage entries)).1.keptIn_add
    (.object (.sealed none) [("op", .text "modify"), ("fields", .node h.size)])
  refine ⟨hkept.trans (htable.trans hop), ?_⟩
  refine ⟨h.size + 1, .sealed none, h.size, lineage, entries, ?_, ?_, ?_, ?_, ?_, ?_⟩
  · simp [Graph.add, Graph.size]
  · simp [Graph.add, Graph.size]
  · have hnode := Graph.node?_add_self (h.add (.object lineage entries)).1
      (.object (.sealed none) [("op", .text "modify"), ("fields", .node h.size)])
    rw [Graph.size_add] at hnode
    exact hnode
  · exact Nat.lt_succ_self _
  · exact hop _ _ (h.node?_add_self _)
  · exact FieldsSpelt.mono (htable.trans hop) (Nat.le_refl _) fields hspelt

theorem added_set (t : TypeSpec) (g : Graph) : Added g (.set t) ((set t).addTo g) := by
  rw [addTo]
  refine ⟨g.keptIn_add _, ?_⟩
  exact ⟨g.size, .sealed none, rfl, by simp [Graph.size_add], g.node?_add_self _⟩

mutual

theorem added : ∀ (p : Production) (g : Graph), Added g p (p.addTo g)
  | .type t, g => ⟨.refl g, rfl⟩
  | .set t, g => added_set t g
  | .drop, g => ⟨.refl g, rfl⟩
  | .modify fields, g => by
      obtain ⟨hkept, hspelt⟩ := addedFields fields g
      rw [addTo]
      exact added_modify hkept hspelt (.sealed none)

theorem addedFields : ∀ (fields : List (String × Production)) (g : Graph),
    g.KeptIn (addFields fields g).1 ∧
      FieldsSpelt (addFields fields g).1 (addFields fields g).1.size fields (addFields fields g).2
  | [], g => ⟨.refl g, rfl⟩
  | (name, p) :: rest, g => by
      obtain ⟨hkept, hspelt⟩ := added p g
      rw [addFields]
      generalize p.addTo g = r at hkept hspelt
      obtain ⟨h, v⟩ := r
      obtain ⟨hkept', hspelt'⟩ := addedFields rest h
      exact ⟨hkept.trans hkept', ⟨v, _, rfl, Spelt.mono hkept' hkept'.size_le p hspelt, hspelt'⟩⟩

end

end Production

/-! ## 4. What is settled is read back -/

namespace Graph

variable {g : Graph}

theorem fillSchema_eq (path : String) : ∀ {s : Schema} {f : Filling TypeSpec},
    Entries.Settled (f.entries ++ s) → f.kept = [] →
      fillSchema path f (s.map fun e => (e.1, .type e.2)) =
        .ok { f with entries := f.entries ++ s }
  | [], f, _, _ => by
      rw [List.append_nil]
      rfl
  | (key, t) :: s, f, hs, hkept => by
      have hkey : ProperName key := hs.proper (key, t) (by simp)
      have hrest : Entries.Settled ((f.entries ++ [(key, t)]) ++ s) := by
        rwa [List.append_assoc, List.singleton_append]
      have ih := fillSchema_eq path (f := { f with entries := f.entries ++ [(key, t)] }) hrest hkept
      rw [List.append_assoc, List.singleton_append] at ih
      rw [List.map_cons, fillSchema, if_neg hkey.1, typeOf, Value.type?, Step.ok_bind,
        hs.store_eq hkept t.partNames]
      exact ih

/-- A settled schema is read back, whatever its ancestor. -/
theorem filledSchemaOf_fieldTable {s : Schema} (hs : Entries.Settled s) (ancestor : Option TypeSpec)
    (path : String) :
    g.filledSchemaOf (.fieldTable s ancestor) path = .ok { entries := s } := by
  have htable : g.isTable (.fieldTable s ancestor) = true := rfl
  have hparts : g.partsOf (.fieldTable s ancestor) = .ok (s.map fun e => (e.1, .type e.2)) := rfl
  rw [filledSchemaOf, if_pos htable, hparts, Step.ok_bind]
  exact fillSchema_eq path (f := {}) hs rfl

/-- **A settled schema is read back.** -/
theorem schemaOf_fieldTable {s : Schema} (hs : Entries.Settled s) (ancestor : Option TypeSpec)
    (path : String) : g.schemaOf (.fieldTable s ancestor) path = .ok s := by
  rw [schemaOf, filledSchemaOf_fieldTable hs]
  rfl

/-- **A record of settled fields is made of them as they are.** -/
theorem recordOf_fieldTable {s : Schema} (hs : Entries.Settled s) :
    g.recordOf (.fieldTable s none) = .ok (.record s none) := by
  rw [recordOf, filledSchemaOf_fieldTable hs]
  rfl

theorem part_own {id : Nat} {lineage : Lineage} {entries : Entries Value} {name : String}
    {w : Value} (hnode : g.node? id = some (.object lineage entries))
    (hw : entries.find? name = some w) : g.part (.node id) name = .ok w :=
  part_object_own (node_of_node? hnode) hw

theorem partsOf_own {id : Nat} {lineage : Lineage} {entries : Entries Value}
    (hnode : g.node? id = some (.object lineage entries)) :
    g.partsOf (.node id) = .ok entries := by
  simp only [partsOf, listed, node_of_node? hnode]

theorem partOrAbsent_own {id : Nat} {lineage : Lineage} {entries : Entries Value} {name : String}
    {w : Value} (hnode : g.node? id = some (.object lineage entries))
    (hw : entries.find? name = some w) : g.partOrAbsent (.node id) name = w := by
  rw [partOrAbsent, part_own hnode hw]

theorem part_drop (g : Graph) : g.part .drop "op" = .ok (.text "drop") := by
  obtain ⟨rest, hline⟩ := g.line_eq_cons .drop
  have hfind : g.find .drop "op" = .fixed (.text "drop") := by
    simp only [find, workedOut?, hline, List.foldr_cons]
    rfl
  simp only [part, hfind]

theorem isTable_object {id : Nat} {lineage : Lineage} {entries : Entries Value}
    (hnode : g.node? id = some (.object lineage entries)) : g.isTable (.node id) = true := by
  rw [isTable, Value.isObject, isList, node_of_node? hnode]
  rfl

theorem givenOperation?_set {id : Nat} {lineage : Lineage} {t : TypeSpec}
    (hnode : g.node? id = some (.object lineage [("op", .text "set"), ("type", .type t)])) :
    g.givenOperation? (.node id) = some (.set t) := by
  have hop : g.partOrAbsent (.node id) "op" = .text "set" := partOrAbsent_own hnode rfl
  have htype : g.partOrAbsent (.node id) "type" = .type t := partOrAbsent_own hnode rfl
  simp [givenOperation?, Value.isObject, hop, htype, Value.type?]

theorem givenOperation?_drop (g : Graph) : g.givenOperation? .drop = some .drop := by
  simp [givenOperation?, Value.isObject, partOrAbsent, part_drop]

theorem givenOperation?_modify {id table : Nat} {lineage : Lineage}
    (hnode : g.node? id =
      some (.object lineage [("op", .text "modify"), ("fields", .node table)])) :
    g.givenOperation? (.node id) = some (.modify (.node table)) := by
  have hop : g.partOrAbsent (.node id) "op" = .text "modify" := partOrAbsent_own hnode rfl
  have hfields : g.partOrAbsent (.node id) "fields" = .node table := partOrAbsent_own hnode rfl
  simp [givenOperation?, Value.isObject, hop, hfields]

/-- The fields that a table spells are read from it. -/
theorem producedAt_table {visiting : List Nat} {id : Nat} {lineage : Lineage}
    {entries : Entries Value} (hnew : id ∉ visiting)
    (hnode : g.node? id = some (.object lineage entries)) (path : String) :
    g.producedAt visiting (.node id) path = (do
      let f ← g.fillProduced (fun w at' => g.producedAt (id :: visiting) w at') path {} entries
      .ok f.entries) := by
  rw [producedAt, if_neg (by rw [isTable_object hnode]; simp)]
  dsimp only
  rw [dif_neg hnew]
  split
  · rename_i hnone
    rw [hnode] at hnone
    cases hnone
  · rename_i n hsome
    rw [hnode] at hsome
    cases hsome
    rfl

end Graph

namespace Production

mutual

/-- **A settled production is read back** from what spells it, inside tables that stand above. -/
theorem Spelt.read {g : Graph} {bound : Nat} : ∀ (p : Production) {v : Value}, p.Spelt g bound v →
    p.Settled → ∀ {visiting : List Nat}, (∀ i ∈ visiting, bound ≤ i) → ∀ path,
      g.productionFrom (fun w at' => g.producedAt visiting w at') v path = .ok p
  | .type t, v, hv, _, _, _, _ => by
      obtain rfl : v = .type t := hv
      rfl
  | .set t, v, ⟨id, lineage, hv, _, hnode⟩, _, _, _, _ => by
      subst hv
      have htype : (Value.node id).type? = none := rfl
      rw [Graph.productionFrom, htype, Graph.givenOperation?_set hnode]
  | .drop, v, hv, _, _, _, _ => by
      obtain rfl : v = .drop := hv
      have htype : Value.drop.type? = none := rfl
      rw [Graph.productionFrom, htype, Graph.givenOperation?_drop]
  | .modify fields, v, ⟨id, lineage, table, lineage', entries, hv, hid, hnode, htable, hfields,
      hentries⟩, hp, visiting, hvisiting, path => by
      subst hv
      have htype : (Value.node id).type? = none := rfl
      have hbelow := Nat.lt_trans htable hid
      have hnew := Graph.not_visited hvisiting hbelow
      have habove := Graph.visiting_cons hvisiting (Nat.le_refl table) (Nat.le_of_lt hbelow)
      have hsettled := settled_modify_iff.1 hp
      have hread := FieldsSpelt.read fields hentries (f := {}) hsettled.table hsettled.productions
        rfl habove path
      rw [Graph.productionFrom, htype, Graph.givenOperation?_modify hnode]
      dsimp only
      rw [Graph.producedAt_table hnew hfields, hread]
      rfl

/-- Settled fields are read back, behind those that were read. -/
theorem FieldsSpelt.read {g : Graph} {bound : Nat} : ∀ (fields : List (String × Production))
    {entries : Entries Value}, FieldsSpelt g bound fields entries →
      ∀ {f : Filling Production}, Entries.Settled (f.entries ++ fields) →
        (∀ e ∈ fields, e.2.Settled) → f.kept = [] →
        ∀ {visiting : List Nat}, (∀ i ∈ visiting, bound ≤ i) → ∀ path,
          g.fillProduced (fun w at' => g.producedAt visiting w at') path f entries =
            .ok { f with entries := f.entries ++ fields }
  | [], entries, he, f, _, _, _, _, _, _ => by
      obtain rfl : entries = [] := he
      rw [List.append_nil]
      rfl
  | (name, p) :: rest, _, ⟨v, later, he, hv, hlater⟩, f, hs, hsettled, hkept, visiting, hvisiting,
      path => by
      subst he
      have hname : ProperName name := hs.proper (name, p) (by simp)
      obtain ⟨hp, hrest⟩ := List.forall_mem_cons.1 hsettled
      have hnext : Entries.Settled ((f.entries ++ [(name, p)]) ++ rest) := by
        rwa [List.append_assoc, List.singleton_append]
      have ih := FieldsSpelt.read rest hlater (f := { f with entries := f.entries ++ [(name, p)] })
        hnext hrest hkept hvisiting path
      rw [List.append_assoc, List.singleton_append] at ih
      rw [Graph.fillProduced, if_neg hname.1, Spelt.read p hv hp hvisiting, Step.ok_bind,
        hs.store_eq hkept]
      exact ih

end

end Production

namespace Graph

variable {g : Graph}

/-- **A table that spells settled fields is read back.** -/
theorem producedOf_table {table : Nat} {lineage : Lineage} {entries : Entries Value}
    {fields : Produced} (htable : g.node? table = some (.object lineage entries))
    (hspelt : Production.FieldsSpelt g table fields entries) (hfields : fields.Settled)
    (path : String) : g.producedOf (.node table) path = .ok fields := by
  have habove : ∀ i ∈ [table], table ≤ i := List.forall_mem_singleton.2 (Nat.le_refl table)
  rw [producedOf, producedAt_table List.not_mem_nil htable,
    Production.FieldsSpelt.read fields hspelt (f := {}) hfields.table hfields.productions rfl habove]
  rfl

theorem schemaSlot_eq (slot : Slot) {id : Nat} {lineage : Lineage} {entries : Entries Value}
    {s : Schema} {ancestor : Option TypeSpec} (hnode : g.node? id = some (.object lineage entries))
    (hs : Entries.Settled s) (hslot : entries.find? slot.name = some (.fieldTable s ancestor))
    (name : String) : g.schemaSlot (.node id) name slot = .ok s := by
  rw [schemaSlot, part_own hnode hslot, Step.ok_bind]
  exact schemaOf_fieldTable hs _ _

/-- A declaration is read whose slots are those of a settled contract. -/
theorem contractOf_slotsUnder {c : Contract} (hc : c.Settled) {id table : Nat}
    {lineage lineage' : Lineage} {entries : Entries Value} {parameters state : Option TypeSpec}
    (hnode : g.node? id = some (.object lineage (c.slotsUnder parameters state (.node table))))
    (htable : g.node? table = some (.object lineage' entries))
    (hspelt : Production.FieldsSpelt g table c.produced entries) (name : String) :
    g.contractOf (.node id) name = .ok c := by
  have hknown : (c.slotsUnder parameters state (.node table)).names.find?
      (fun key => (Slot.ofName? key).isNone) = none := by
    have hnames : (c.slotsUnder parameters state (.node table)).names = Slot.names := rfl
    rw [hnames]
    decide
  have hproduced : g.producedSlot (.node id) name = .ok c.produced := by
    have hpart : g.part (.node id) Slot.producedOrModified.name = .ok (.node table) :=
      part_own hnode rfl
    rw [producedSlot, hpart, Step.ok_bind]
    exact producedOf_table htable hspelt hc.produced _
  have hobject : (!(Value.node id).isObject) = false := rfl
  simp only [contractOf, contractAt, hobject, Bool.false_eq_true, if_false, partsOf_own hnode,
    Step.ok_bind, hknown, schemaSlot_eq .fitRequires hnode hc.fitRequires rfl,
    schemaSlot_eq .transformRequires hnode hc.transformRequires rfl,
    schemaSlot_eq .fitParameters hnode hc.fitParameters rfl,
    schemaSlot_eq .fittedState hnode hc.fittedState rfl, hproduced]

/-- **A settled contract is read back unchanged**, whatever it is called and whatever else there
    is. -/
theorem contractOf_addContract (g : Graph) {c : Contract} (hc : c.Settled) (name : String) :
    (g.addContract c).1.contractOf (g.addContract c).2 name = .ok c := by
  obtain ⟨-, hspelt⟩ := Production.addedFields c.produced g
  rw [addContract]
  generalize Production.addFields c.produced g = r at hspelt
  obtain ⟨h, entries⟩ := r
  have hkept := h.keptIn_add (.object (.sealed none) entries)
  have hkept' := (h.add (.object (.sealed none) entries)).1.keptIn_add
    (.object (.sealed none) (c.slots (.node h.size)))
  have hslots := (h.add (.object (.sealed none) entries)).1.node?_add_self
    (.object (.sealed none) (c.slotsUnder none none (.node h.size)))
  exact contractOf_slotsUnder hc hslots (hkept' _ _ (h.node?_add_self _))
    (Production.FieldsSpelt.mono (hkept.trans hkept') (Nat.le_refl _) _ hspelt) name

end Graph

end SchemaFlow
