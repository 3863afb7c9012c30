import SchemaFlow.Proofs.Contract.Check
import SchemaFlow.Proofs.Observation.Acyclic

/-!
# Plain objects

A plain object is a value that is seen as a record where a record is expected. One without cycles
and without types in it is a table of what it lists (`observe_plain`), so its fields can be spoken
of: they are payload values again (`Graph.Tame.fieldAt`).
-/

namespace SchemaFlow

/-! ## 1. Payload values and their fields -/

namespace Graph

/-- Whether a value is seen as a record where a record is expected, as plain objects are. -/
def looksRecord (g : Graph) (v : Value) : Bool :=
  match g.observe (some TypeSpec.emptyRecord) v with
  | .ok (.record _ _) => true
  | _ => false

/-- The field of a plain object; absent where it has none, or is no plain object. -/
def fieldAt (g : Graph) (v : Value) (name : String) : Value :=
  if g.looksRecord v then valueAt (g.listed v) name else .absent

/-- The objects of a graph have each name once. -/
def NamesDistinct (g : Graph) : Prop :=
  ∀ id lineage entries, g.node? id = some (.object lineage entries) → Entries.Distinct entries

/-- A payload value: it is no part of itself, there is no type in it, and no observation of it
    fails. -/
structure Tame (g : Graph) (v : Value) : Prop where
  acyclic : g.Acyclic v
  typeless : g.Typeless v
  observable : g.Observable v

end Graph

theorem looksRecord_iff {g : Graph} {v : Value} : g.looksRecord v = true ↔
    ∃ fs ancestor, g.observe (some TypeSpec.emptyRecord) v = .ok (.record fs ancestor) := by
  unfold Graph.looksRecord
  split
  · rename_i fs ancestor h
    simp [h]
  · rename_i h
    simp only [Bool.false_eq_true, false_iff]
    rintro ⟨fs, ancestor, hv⟩
    exact h fs ancestor hv

theorem Graph.tame_leaf {g : Graph} {v : Value} (hleaf : v.isContainer = false)
    (ht : ∀ t, v ≠ .type t) (hv : ∃ t, leafType v = .ok t) : g.Tame v where
  acyclic := acyclic_of_held (held_leaf hleaf)
  typeless := typeless_of_held (held_leaf hleaf) ht
  observable hint := by
    obtain ⟨t, h⟩ := hv
    exact ⟨t, (observeAt_leaf g [] [] _ hleaf).trans h⟩

theorem Graph.tame_absent (g : Graph) : g.Tame .absent :=
  tame_leaf rfl (by simp) ⟨_, rfl⟩

theorem Graph.tame_valueAt {g : Graph} {data : Entries Value} (h : ∀ e ∈ data, g.Tame e.2)
    (key : String) : g.Tame (valueAt data key) := by
  unfold valueAt
  cases hv : data.find? key with
  | none => exact g.tame_absent
  | some v => exact h _ (Entries.mem_of_find? hv)

/-! ## 2. What is seen as a record -/

theorem handle_ne_record (label : String) (fs : Schema) (ancestor : Option TypeSpec) :
    Graph.handle label ≠ .ok (.record fs ancestor) := by
  unfold Graph.handle
  split <;> simp [refuseHere]

theorem leafType_ne_record {v : Value} (ht : ∀ t, v ≠ .type t) (fs : Schema)
    (ancestor : Option TypeSpec) : leafType v ≠ .ok (.record fs ancestor) := by
  cases v with
  | type t => exact absurd rfl (ht t)
  | foreign c => exact handle_ne_record c fs ancestor
  | founder f =>
      cases f with
      | buffer c => exact handle_ne_record c fs ancestor
      | _ => simp [leafType]
  | _ => simp [leafType]

theorem describedType_ne_record (label dtype : String) (shape : List (Option Float)) (fs : Schema)
    (ancestor : Option TypeSpec) : describedType label dtype shape ≠ .ok (.record fs ancestor) := by
  unfold describedType
  split
  · intro h
    obtain ⟨ds, _, h⟩ := Step.bind_eq_ok.1 h
    cases h
  · split
    · simp [refuseHere]
    · split
      · simp [refuseHere]
      · exact handle_ne_record label fs ancestor

variable {g : Graph} {v : Value}

theorem listed_of_no_node {id : Nat} (h : g.node? id = none) : g.listed (.node id) = [] := by
  simp [Graph.listed, Graph.node, h, default]

theorem listed_of_object {id : Nat} {lineage : Lineage} {entries : Entries Value}
    (h : g.node? id = some (.object lineage entries)) : g.listed (.node id) = entries := by
  simp [Graph.listed, Graph.node, h]

/-- A node that is seen as a record is an object, and a table of what it lists whatever is expected
    of it. -/
theorem nodeType_of_record {obs : Hint → Value → Except Fault TypeSpec}
    {keyObs : Value → Except Fault TypeSpec} {id : Nat} {fs : Schema} {ancestor : Option TypeSpec}
    {expected : Hint} (h : g.nodeType obs keyObs expected id = .ok (.record fs ancestor)) :
    (g.node? id = none ∨ ∃ lineage, g.node? id = some (.object lineage (g.listed (.node id)))) ∧
      ∀ hint, g.nodeType obs keyObs hint id = tableType obs hint (g.listed (.node id)) := by
  unfold Graph.nodeType at h ⊢
  cases hnode : g.node? id with
  | none =>
      rw [listed_of_no_node hnode]
      exact ⟨Or.inl rfl, fun hint => tableType_congr hint fun e he => absurd he List.not_mem_nil⟩
  | some n =>
      rw [hnode] at h
      cases n with
      | list items =>
          obtain ⟨_, h, _⟩ := listType_eq_ok h
          cases h
      | map entries =>
          obtain ⟨_, _, _, h, _⟩ := mapType_eq_ok h
          cases h
      | object lineage entries =>
          rw [listed_of_object hnode]
          refine ⟨Or.inr ⟨lineage, rfl⟩, ?_⟩
          dsimp only at h ⊢
          split at h
          · exact absurd h (describedType_ne_record _ _ _ fs ancestor)
          · split at h
            · exact absurd h (handle_ne_record _ fs ancestor)
            · exact absurd h (handle_ne_record _ fs ancestor)
            · exact fun _ => rfl
            · exact fun _ => rfl
            · exact fun _ => rfl

/-- What a payload value is that is seen as a record. -/
inductive Graph.Plain (g : Graph) : Value → Prop
  | node {id : Nat} {lineage : Lineage} :
      g.node? id = some (.object lineage (g.listed (.node id))) → Plain g (.node id)
  | missing {id : Nat} : g.node? id = none → Plain g (.node id)
  | founder {f : Family} : f ≠ .list → Plain g (.founder f)
  | drop : Plain g .drop
  | empty : Plain g .emptyTable

theorem plain_of_looksRecord (hv : g.Typeless v) (hrecord : g.looksRecord v = true) : g.Plain v := by
  obtain ⟨fs, ancestor, h⟩ := looksRecord_iff.1 hrecord
  unfold Graph.observe at h
  cases v with
  | type t => exact absurd .refl (hv t)
  | fieldTable gs other =>
      cases other with
      | none =>
          cases gs with
          | nil => exact .empty
          | cons e gs => exact absurd (.single List.mem_cons_self) (hv e.2)
      | some a =>
          rw [Graph.observeAt] at h
          exact absurd h (handle_ne_record _ fs ancestor)
  | drop => exact .drop
  | sizeList ds =>
      rw [Graph.observeAt] at h
      obtain ⟨_, h, _⟩ := listType_eq_ok h
      cases h
  | founder f =>
      refine .founder fun hf => ?_
      subst hf
      rw [Graph.observeAt] at h
      obtain ⟨_, h, _⟩ := listType_eq_ok h
      cases h
  | node id =>
      rw [observeAt_node g _ List.not_mem_nil fun _ _ => List.not_mem_nil] at h
      rcases (nodeType_of_record h).1 with hnode | ⟨lineage, hnode⟩
      · exact .missing hnode
      · exact .node hnode
  | _ =>
      rw [observeAt_leaf g _ _ _ rfl] at h
      exact absurd h (leafType_ne_record (by simp) fs ancestor)

/-! ## 3. What a plain object lists -/

/-- The parts of a founder that is seen as a record: it lists none. -/
theorem founderType_of_record {f : Family} {fs : Schema} {ancestor : Option TypeSpec}
    {expected : Hint} (h : g.founderType expected f = .ok (.record fs ancestor)) (hint : Hint) :
    g.founderType hint f = tableType (fun _ w => leafType w) hint [] := by
  unfold Graph.founderType at h ⊢
  obtain ⟨entries, hentries, h⟩ := Step.bind_eq_ok.1 h
  have hnone : entries = [] := by
    unfold Graph.partsOf at hentries
    split at hentries <;> cases hentries
    rfl
  subst hnone
  rw [Step.bind_of_ok hentries]
  split at h
  · exact if_pos (by assumption)
  · exact absurd h (leafType_ne_record (by simp) fs ancestor)

theorem observeAt_node_of_record {id : Nat} {fs : Schema} {ancestor : Option TypeSpec}
    {expected : Hint} (hv : g.Acyclic (.node id))
    (h : g.observeAt [] [] expected (.node id) = .ok (.record fs ancestor)) (hint : Hint) :
    g.observeAt [] [] hint (.node id) =
      tableType (fun hint w => g.observeAt [] [] hint w) hint (g.listed (.node id)) := by
  rw [observeAt_node g _ List.not_mem_nil fun _ _ => List.not_mem_nil] at h ⊢
  rw [(nodeType_of_record h).2 hint]
  refine tableType_congr hint fun e he hint => ?_
  have hholds := holds_of_mem_node he
  -- what the node holds does not reach the node
  have hfresh : ∀ other, g.Reaches e.2 (.node other) → other ∉ [id] ∧ other ∉ [] := by
    intro other hother
    refine ⟨?_, List.not_mem_nil⟩
    rw [List.mem_singleton]
    rintro rfl
    exact hv _ .refl (.head' hholds hother)
  exact observeAt_of_acyclic (hv.of_holds hholds) hint hfresh fun other _ => by simp

/-- **A plain object is a table of what it lists**, whatever is expected of it. -/
theorem observe_plain (hv : g.Tame v) (hrecord : g.looksRecord v = true) (hint : Hint) :
    g.observeAt [] [] hint v =
      tableType (fun hint w => g.observeAt [] [] hint w) hint (g.listed v) := by
  obtain ⟨fs, ancestor, h⟩ := looksRecord_iff.1 hrecord
  unfold Graph.observe at h
  cases plain_of_looksRecord hv.typeless hrecord with
  | node _ => exact observeAt_node_of_record hv.acyclic h hint
  | missing _ => exact observeAt_node_of_record hv.acyclic h hint
  | @founder f hf =>
      rw [observeAt_founder g [] [] _ hf] at h ⊢
      rw [founderType_of_record h hint]
      exact tableType_congr hint fun e he => absurd he List.not_mem_nil
  | drop =>
      rw [Graph.observeAt]
      refine tableType_congr hint fun e he hint => ?_
      obtain rfl := List.mem_singleton.1 he
      exact (observeAt_leaf g [] [] hint rfl).symm
  | empty =>
      unfold Value.emptyTable
      rw [Graph.observeAt]
      exact tableType_congr hint fun e he => absurd he List.not_mem_nil

/-! ## 4. Fields are payload values -/

/-- Every present entry has been observed. -/
theorem observed_of_observeFields {obs : Hint → Value → Except Fault TypeSpec} {hint : Hint} :
    ∀ {entries : Entries Value} {f out : Filling TypeSpec},
      observeFields obs hint f entries = .ok out →
      ∀ e ∈ entries, e.2.isAbsent = false → ∃ t, obs (hint.part e.1) e.2 = .ok t
  | [], _, _, _ => fun e he => absurd he List.not_mem_nil
  | (name, w) :: entries, f, out, h => by
      rw [observeFields] at h
      refine List.forall_mem_cons.2 ⟨fun hpresent => ?_, ?_⟩
      · dsimp only at hpresent
        rw [hpresent, if_neg Bool.false_ne_true] at h
        obtain ⟨t, ht, _⟩ := Step.bind_eq_ok.1 h
        exact ⟨t, ht⟩
      · split at h
        · exact observed_of_observeFields h
        · obtain ⟨t, _, h⟩ := Step.bind_eq_ok.1 h
          split at h
          · exact observed_of_observeFields h
          · cases h

theorem Graph.NamesDistinct.listed (hg : g.NamesDistinct) (hv : g.Tame v)
    (hrecord : g.looksRecord v = true) : Entries.Distinct (g.listed v) := by
  cases plain_of_looksRecord hv.typeless hrecord with
  | node hnode => exact hg _ _ _ hnode
  | missing hnode =>
      rw [listed_of_no_node hnode]
      exact Entries.distinct_nil
  | founder _ => exact Entries.distinct_nil
  | drop => exact List.nodup_singleton _
  | empty => exact Entries.distinct_nil

/-- What a plain object is observed as under a record. -/
theorem observe_record (hv : g.Tame v) (hrecord : g.looksRecord v = true) (fs : Schema)
    (ancestor : Option TypeSpec) : ∃ out : Filling TypeSpec,
      g.observe (some (.record fs ancestor)) v = .ok (.record out.entries none) ∧
      observeFields (fun hint w => g.observeAt [] [] hint w)
        (Hint.part "fields" (.type (.record fs ancestor))) {} (g.listed v) = .ok out := by
  obtain ⟨u, hu⟩ := hv.observable (some (.record fs ancestor))
  have htable := hu
  unfold Graph.observe at htable
  rw [observe_plain hv hrecord] at htable
  rcases tableType_eq_ok htable with ⟨_, out, rfl, hout⟩ | ⟨hsort, _⟩
  · exact ⟨out, hu, hout⟩
  · exact absurd rfl hsort

/-- The fields of a plain object can be observed under every hint. -/
theorem observable_listed (hv : g.Tame v) (hrecord : g.looksRecord v = true) {e : String × Value}
    (he : e ∈ g.listed v) : g.Observable e.2 := by
  intro hint
  cases hpresent : e.2.isAbsent with
  | true =>
      have habsent : e.2 = .absent := by
        cases hw : e.2 with
        | absent => rfl
        | _ => rw [hw] at hpresent; cases hpresent
      rw [habsent]
      exact g.tame_absent.observable hint
  | false =>
      cases hint with
      | none =>
          obtain ⟨out, _, hout⟩ := observe_record hv hrecord [] none
          exact observed_of_observeFields hout e he hpresent
      | some t =>
          obtain ⟨out, _, hout⟩ := observe_record hv hrecord [(e.1, t)] none
          have hobs := observed_of_observeFields hout e he hpresent
          rwa [Hint.part_fields_record (t := t) (by simp [Entries.find?_cons])] at hobs

theorem Graph.Tame.fieldAt (hv : g.Tame v) (name : String) : g.Tame (g.fieldAt v name) := by
  unfold Graph.fieldAt
  split
  · rename_i hrecord
    unfold valueAt
    cases hw : Entries.find? (g.listed v) name with
    | none => exact g.tame_absent
    | some w =>
        have hmem := Entries.mem_of_find? hw
        exact ⟨hv.acyclic.listed hv.typeless.ne_type hmem, hv.typeless.listed hmem,
          observable_listed hv hrecord hmem⟩
  · exact g.tame_absent

/-! ## 5. Rows

A row is a plain object that holds values without parts. -/

theorem firstMisfit_returns {obs : Value → Except Fault TypeSpec} (e : TypeSpec) :
    ∀ {vs : List Value} (first : Option TypeSpec), (∀ w ∈ vs, ∃ t, obs w = .ok t) →
      ∃ t, firstMisfit obs e first vs = .ok t
  | [], _, _ => ⟨_, rfl⟩
  | w :: vs, first, h => by
      obtain ⟨⟨t, ht⟩, hvs⟩ := List.forall_mem_cons.1 h
      rw [firstMisfit, Step.bind_of_ok ht]
      split
      · exact ⟨t, rfl⟩
      · exact firstMisfit_returns e _ hvs

theorem elementType_returns {obs : Value → Except Fault TypeSpec} (e : Option TypeSpec)
    {vs : List Value} (h : ∀ w ∈ vs, ∃ t, obs w = .ok t) : ∃ t, elementType obs e vs = .ok t := by
  cases e with
  | some e => exact firstMisfit_returns e none h
  | none =>
      cases vs with
      | nil => exact ⟨_, rfl⟩
      | cons w ws => exact h w List.mem_cons_self

/-- A present entry is stored as what is observed of it. -/
theorem observeFields_cons {obs : Hint → Value → Except Fault TypeSpec} {hint : Hint} {name : String}
    {w : Value} {t : TypeSpec} {f f' : Filling TypeSpec} (hpresent : w.isAbsent = false)
    (ht : obs (hint.part name) w = .ok t) (hstore : f.store t.partNames name t = some f')
    (entries : Entries Value) :
    observeFields obs hint f ((name, w) :: entries) = observeFields obs hint f' entries := by
  rw [observeFields, hpresent, if_neg Bool.false_ne_true, Step.bind_of_ok ht, hstore]

/-- The names of the parts of types: an ancestor keeps some of them. -/
def TypeSpec.keptNames : List String :=
  ["kind", "scalar", "element", "dimensions", "key", "value", "label", "fields"]

theorem TypeSpec.partNames_subset (t : TypeSpec) : t.partNames ⊆ keptNames := by
  cases t <;> simp [partNames, keptNames]

/-- Entries that can be stored one after the other: none of them becomes the ancestor, or none has a
    name that an ancestor keeps. -/
def Storable (entries : Entries Value) : Prop :=
  (∀ e ∈ entries, e.2.isAbsent = false → e.1 ≠ ancestorName) ∨
    ∀ e ∈ entries, e.2.isAbsent = false → e.1 ∉ TypeSpec.keptNames

/-- A table on its way has room for entries: it keeps nothing and goes on to keep nothing, or none of
    the names is kept by any ancestor. -/
def Filling.Room (f : Filling TypeSpec) (entries : Entries Value) : Prop :=
  (f.kept = [] ∧ ∀ e ∈ entries, e.2.isAbsent = false → e.1 ≠ ancestorName) ∨
    (f.kept ⊆ TypeSpec.keptNames ∧ ∀ e ∈ entries, e.2.isAbsent = false → e.1 ∉ TypeSpec.keptNames)

theorem Storable.room {entries : Entries Value} (h : Storable entries) :
    Filling.Room {} entries := by
  rcases h with h | h
  · exact Or.inl ⟨rfl, h⟩
  · exact Or.inr ⟨List.nil_subset _, h⟩

theorem Filling.Room.tail {f : Filling TypeSpec} {e : String × Value} {entries : Entries Value}
    (h : f.Room (e :: entries)) : f.Room entries := by
  rcases h with ⟨hkept, h⟩ | ⟨hkept, h⟩
  · exact Or.inl ⟨hkept, (List.forall_mem_cons.1 h).2⟩
  · exact Or.inr ⟨hkept, (List.forall_mem_cons.1 h).2⟩

/-- Where there is room an entry is stored, and there is room for those behind it. -/
theorem Filling.Room.store {f : Filling TypeSpec} {name : String} {w : Value}
    {entries : Entries Value} (h : f.Room ((name, w) :: entries)) (hpresent : w.isAbsent = false)
    (hname : name ≠ "") (hempty : f.entries.has "" = false) (t : TypeSpec) :
    ∃ f', f.store t.partNames name t = some f' ∧ f'.entries.has "" = false ∧ f'.Room entries := by
  by_cases hancestor : name = ancestorName
  · subst hancestor
    refine ⟨_, f.store_ancestor t.partNames t, hempty, ?_⟩
    rcases h with ⟨_, h⟩ | ⟨_, h⟩
    · exact absurd rfl (h _ List.mem_cons_self hpresent)
    · exact Or.inr ⟨t.partNames_subset, (List.forall_mem_cons.1 h).2⟩
  · have hfree : f.kept.contains name = false := by
      rcases h with ⟨hkept, _⟩ | ⟨hkept, h⟩
      · simp [hkept]
      · have hnot : name ∉ TypeSpec.keptNames := h _ List.mem_cons_self hpresent
        simpa using fun hmem => hnot (hkept hmem)
    have hstore : f.store t.partNames name t = some { f with entries := f.entries.insert name t } := by
      rw [Filling.store, if_neg hancestor, hfree, Bool.and_false, if_neg Bool.false_ne_true]
    refine ⟨_, hstore, ?_, h.tail⟩
    rw [Entries.has_eq_false_iff] at hempty ⊢
    rw [Entries.find?_insert, if_neg (Ne.symm hname)]
    exact hempty

/-- Entries can be stored as fields when each that is there can be observed, and none of them then
    stands under the empty name. -/
theorem observeFields_returns {obs : Hint → Value → Except Fault TypeSpec} (hint : Hint) :
    ∀ {entries : Entries Value} {f : Filling TypeSpec}, f.Room entries → f.entries.has "" = false →
      (∀ e ∈ entries, e.2.isAbsent = false → e.1 ≠ "" ∧ ∃ t, obs (hint.part e.1) e.2 = .ok t) →
      ∃ out, observeFields obs hint f entries = .ok out ∧ out.entries.has "" = false
  | [], f, _, hempty, _ => ⟨f, rfl, hempty⟩
  | (name, w) :: entries, f, hroom, hempty, h => by
      obtain ⟨hw, hrest⟩ := List.forall_mem_cons.1 h
      cases hpresent : w.isAbsent with
      | true =>
        rw [observeFields, hpresent, if_pos rfl]
        exact observeFields_returns hint hroom.tail hempty hrest
      | false =>
        obtain ⟨hname, t, ht⟩ := hw hpresent
        obtain ⟨f', hstore, hempty', hroom'⟩ := hroom.store hpresent hname hempty t
        rw [observeFields_cons hpresent ht hstore]
        exact observeFields_returns hint hroom' hempty' hrest

/-- Where a record is expected a table is seen by its fields. -/
theorem tableType_returns_of_fields {obs : Hint → Value → Except Fault TypeSpec} {hint : Hint}
    {entries : Entries Value} (hsort : hint.sort? = some "record") (hstore : Storable entries)
    (h : ∀ e ∈ entries, e.2.isAbsent = false →
      e.1 ≠ "" ∧ ∃ t, obs ((hint.part "fields").part e.1) e.2 = .ok t) :
    ∃ t, tableType obs hint entries = .ok t := by
  obtain ⟨out, hout, hempty⟩ := observeFields_returns (hint.part "fields") hstore.room rfl h
  rw [tableType, if_pos hsort, Step.bind_of_ok hout, hempty, if_neg Bool.false_ne_true]
  exact ⟨_, rfl⟩

/-- Where no record is expected a table is seen by its contents. -/
theorem tableType_returns_of_contents {obs : Hint → Value → Except Fault TypeSpec} {hint : Hint}
    {entries : Entries Value} (hsort : hint.sort? ≠ some "record")
    (h : ∀ e ∈ entries, ∃ t, obs hint.value e.2 = .ok t) :
    ∃ t, tableType obs hint entries = .ok t := by
  have hcontents : ∀ w ∈ entries.contents, ∃ t, obs hint.value w = .ok t := by
    intro w hw
    obtain ⟨e, he, rfl⟩ := List.mem_map.1 hw
    exact h e he
  obtain ⟨t, ht⟩ := elementType_returns hint.value.type? hcontents
  rw [tableType, if_neg hsort]
  exact ⟨.mapping .string t, by rw [Step.bind_of_ok ht]⟩

theorem tableType_returns {obs : Hint → Value → Except Fault TypeSpec} (hint : Hint)
    {entries : Entries Value}
    (h : ∀ e ∈ entries, ProperName e.1 ∧ ∀ hint, ∃ t, obs hint e.2 = .ok t) :
    ∃ t, tableType obs hint entries = .ok t := by
  by_cases hsort : hint.sort? = some "record"
  · exact tableType_returns_of_fields hsort (Or.inl fun e he _ => (h e he).1.2)
      fun e he _ => ⟨(h e he).1.1, (h e he).2 _⟩
  · exact tableType_returns_of_contents hsort fun e he => (h e he).2 _

/-- A node that is a plain object of values without parts. -/
structure Graph.Row (g : Graph) (id : Nat) (entries : Entries Value) : Prop where
  node : g.node? id = some (.object .plain entries)
  undescribed : g.description? entries = none
  primitive : ∀ e ∈ entries, e.2.isContainer = false
  typeless : ∀ e ∈ entries, ∀ t, e.2 ≠ .type t
  observed : ∀ e ∈ entries, ProperName e.1 ∧ ∃ t, leafType e.2 = .ok t

theorem Graph.Row.observeAt {id : Nat} {entries : Entries Value} (h : g.Row id entries)
    (hint : Hint) : g.observeAt [] [] hint (.node id) =
      tableType (fun _ w => leafType w) hint entries := by
  have hdescribing : g.describing .plain entries = entries := rfl
  rw [observeAt_node g _ List.not_mem_nil fun _ _ => List.not_mem_nil]
  unfold nodeType
  simp only [h.node, hdescribing, h.undescribed]
  exact tableType_congr hint fun e he hint => observeAt_leaf g [] [id] hint (h.primitive e he)

theorem Graph.Row.looksRecord {id : Nat} {entries : Entries Value} (h : g.Row id entries) :
    g.looksRecord (.node id) = true := by
  obtain ⟨t, ht⟩ :
      ∃ t, tableType (fun _ w => leafType w) (.type TypeSpec.emptyRecord) entries = .ok t :=
    tableType_returns _ fun e he => ⟨(h.observed e he).1, fun _ => (h.observed e he).2⟩
  have hobserve : g.observe (some TypeSpec.emptyRecord) (.node id) = .ok t := (h.observeAt _).trans ht
  rcases tableType_eq_ok ht with ⟨_, out, rfl, _⟩ | ⟨hsort, _⟩
  · exact looksRecord_iff.2 ⟨_, _, hobserve⟩
  · exact absurd rfl hsort

theorem Graph.Row.fieldAt {id : Nat} {entries : Entries Value} (h : g.Row id entries)
    (name : String) : g.fieldAt (.node id) name = valueAt entries name := by
  unfold Graph.fieldAt
  rw [if_pos h.looksRecord, listed_of_object h.node]

/-- **A row is a payload value.** -/
theorem Graph.Row.tame {id : Nat} {entries : Entries Value} (h : g.Row id entries) :
    g.Tame (.node id) := by
  have hheld : ∀ w, g.Holds (.node id) w → g.held w = [] ∧ ∀ t, w ≠ .type t := by
    intro w hw
    unfold Holds held at hw
    simp only [h.node] at hw
    obtain ⟨e, he, rfl⟩ := List.mem_map.1 hw
    exact ⟨held_leaf (h.primitive e he), h.typeless e he⟩
  have hreaches : ∀ w, g.Reaches (.node id) w → w = .node id ∨ g.Holds (.node id) w := by
    intro w hw
    rcases Relation.ReflTransGen.cases_head hw with hw | ⟨x, hx, hxw⟩
    · exact Or.inl hw.symm
    · obtain rfl := eq_of_reaches (hheld x hx).1 hxw
      exact Or.inr hx
  have hnothing : ∀ x y, g.Holds (.node id) x → ¬ g.Holds x y := by
    intro x y hx hy
    have hempty : g.held x = [] := (hheld x hx).1
    unfold Holds at hy
    rw [hempty] at hy
    cases hy
  refine ⟨fun w hw hcycle => ?_, fun t ht => ?_, fun hint => ?_⟩
  · obtain ⟨x, hx, hxw⟩ := Relation.TransGen.head'_iff.1 hcycle
    rcases hreaches w hw with rfl | hw
    · obtain rfl := eq_of_reaches (hheld x hx).1 hxw
      exact hnothing _ _ hx hx
    · exact hnothing _ _ hw hx
  · rcases hreaches _ ht with h | h
    · cases h
    · exact (hheld _ h).2 t rfl
  · obtain ⟨t, ht⟩ : ∃ t, tableType (fun _ w => leafType w) (.ofType? hint) entries = .ok t :=
      tableType_returns _ fun e he => ⟨(h.observed e he).1, fun _ => (h.observed e he).2⟩
    exact ⟨t, (h.observeAt _).trans ht⟩

end SchemaFlow
