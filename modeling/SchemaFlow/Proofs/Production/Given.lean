import SchemaFlow.Production.Unchecked
import SchemaFlow.Proofs.Entries.Arrival
import SchemaFlow.Proofs.Production.InTurn
import SchemaFlow.Proofs.Production.Made

/-!
# Productions as they are given

Productions that are given as values are applied and composed as values, too: tables are edited in
order of arrival, and each record and each modification that is built on the way is checked like one
from outside. Where the values spell productions that were made, no such check refuses anything, and
what comes out is what `Production.apply` and `Production.compose` say.

* `applyGiven_spelt`: the effect on a value.
* `effectOfGiven_spelt`: the effect on a table of types.
* `composeGiven_spelt`: the composition of two, added to the graph.
-/

namespace SchemaFlow

open Entries (Parallel Arrived)

/-! ## 1. Editing a record -/

/-- A value is a type. -/
def Value.IsType (v : Value) (t : TypeSpec) : Prop := v = .type t

theorem getD_of_isType {o : Option Value} {p : Option TypeSpec}
    (h : Option.Rel Value.IsType o p) : o.getD .absent = (stored? p).getD .absent := by
  cases h with
  | some hv => exact hv
  | none => rfl

theorem parallel_types (fs : Schema) :
    Parallel Value.IsType (fs.map fun e => (e.1, .type e.2)) fs := by
  induction fs with
  | nil => exact .nil
  | cons e fs ih => exact .cons ⟨rfl, rfl⟩ ih

theorem eq_map_of_parallel {es : Entries Value} {fs : Schema} (h : Parallel Value.IsType es fs) :
    es = fs.map fun e => (e.1, .type e.2) := by
  induction h with
  | nil => rfl
  | cons hef _ ih => exact congrArg₂ List.cons (Prod.ext hef.1 hef.2) ih

/-- What is left under a name is stored, and a name that is gone is removed. -/
theorem Entries.Arrived.stored {es : Entries Value} {fs : Schema}
    (h : Arrived Value.IsType es fs) (name : String) (o : Option TypeSpec) :
    Arrived Value.IsType
      (if ((stored? o).getD .absent).isAbsent then es.erase name
        else es.put name ((stored? o).getD .absent))
      (Production.stored fs name o) := by
  cases o with
  | none => exact h.erase name
  | some t => exact h.put rfl

namespace Production

/-- A step that does to types what a production does to them. -/
def AppliesAs (step : Value → Value → Except Fault Value) (w : Value) (p : Production) : Prop :=
  ∀ current : Option TypeSpec, (∀ t, current = some t → t.Settled) →
    step ((stored? current).getD .absent) w = .ok ((stored? (p.apply current)).getD .absent)

/-- **Fields that are edited in order of arrival arrive at the edited record.** -/
theorem editGiven_eq {step : Value → Value → Except Fault Value} {entries : Entries Value}
    {fields : Produced} (hsteps : Parallel (AppliesAs step) entries fields)
    (hmade : ∀ e ∈ fields, ProperName e.1 ∧ e.2.Made) :
    ∀ {table : Entries Value} {fs : Schema}, Arrived Value.IsType table fs → fs.Settled →
      ∃ next, Graph.editGiven step entries table = .ok next ∧
        Arrived Value.IsType next (applyFields fields fs) := by
  induction hsteps with
  | nil => exact fun htable _ => ⟨_, rfl, htable⟩
  | @cons e f entries fields hef _ ih =>
      intro table fs htable hfs
      obtain ⟨name, w⟩ := e
      obtain ⟨_, p⟩ := f
      obtain ⟨rfl, hstep⟩ := hef
      obtain ⟨⟨hname, hp⟩, hrest⟩ := List.forall_mem_cons.1 hmade
      have hcurrent : ∀ t, fs.find? name = some t → t.Settled := fun _ => hfs.find?
      rw [Graph.editGiven, getD_of_isType (htable.find? name), hstep _ hcurrent, Step.ok_bind,
        applyFields_cons]
      exact ih hrest (htable.stored name _) (settled_stored hfs hname (hp.apply hcurrent))

end Production

/-! ## 2. Effect -/

namespace Graph

variable {g : Graph} {visiting : List Nat} {id : Nat} {lineage : Lineage}

theorem applyGivenAt_set {t : TypeSpec} (hnew : id ∉ visiting)
    (hnode : g.node? id = some (.object lineage [("op", .text "set"), ("type", .type t)]))
    (current : Value) : g.applyGivenAt visiting current (.node id) = .ok (.type t) := by
  rw [applyGivenAt]
  dsimp only
  rw [dif_neg hnew, dif_pos (lt_size_of_node? hnode), part_own hnode rfl, Step.ok_bind]
  exact part_own hnode rfl

theorem applyGivenAt_modify {table : Nat} {lineage' : Lineage} {entries : Entries Value}
    (hnew : id ∉ visiting)
    (hnode : g.node? id =
      some (.object lineage [("op", .text "modify"), ("fields", .node table)]))
    (htable : g.node? table = some (.object lineage' entries)) (current : Value) :
    g.applyGivenAt visiting current (.node id) = (do
      let before ← g.fieldsOf current
      let edited ← editGiven (fun w p => g.applyGivenAt (id :: visiting) w p) entries
        (before.map fun (k, t) => (k, .type t))
      let f ← fillSchema "record" {} (Entries.ofList edited)
      .ok (.type (.ofFilling f))) := by
  have hop : g.part (.node id) "op" = .ok (.text "modify") := part_own hnode rfl
  have hfields : g.part (.node id) "fields" = .ok (.node table) := part_own hnode rfl
  rw [applyGivenAt]
  simp only [dif_neg hnew, dif_pos (lt_size_of_node? hnode), hop, hfields, partsOf_own htable,
    Step.ok_bind]

end Graph

namespace Production

mutual

/-- **What spells a production does to a value what the production does**, inside operations that
    stand above. -/
theorem Spelt.apply {g : Graph} {bound : Nat} : ∀ (p : Production) {w : Value}, p.Spelt g bound w →
    p.Made → ∀ {visiting : List Nat}, (∀ i ∈ visiting, bound ≤ i) → ∀ {current : Value},
      g.Readable current → (∀ t, g.standsFor current = some t → t.Settled) →
        g.applyGivenAt visiting current w =
          .ok ((stored? (p.apply (g.standsFor current))).getD .absent)
  | .type t, w, hw, _, _, _, _, _, _ => by
      obtain rfl : w = .type t := hw
      rw [Graph.applyGivenAt]
      rfl
  | .set t, w, ⟨id, lineage, hw, hid, hnode⟩, _, visiting, hvisiting, current, _, _ => by
      subst hw
      have hnew := Graph.not_visited hvisiting hid
      exact Graph.applyGivenAt_set hnew hnode current
  | .drop, w, hw, _, _, _, _, _, _ => by
      obtain rfl : w = .drop := hw
      rw [Graph.applyGivenAt]
      · rfl
      all_goals simp
  | .modify fields, w, ⟨id, lineage, table, lineage', entries, hw, hid, hnode, htable, hfields,
      hentries⟩, hp, visiting, hvisiting, current, hcurrent, hsettled => by
      subst hw
      have hnew := Graph.not_visited hvisiting hid
      have habove := Graph.visiting_cons hvisiting (Nat.le_of_lt htable)
        (Nat.le_of_lt (Nat.lt_trans htable hid))
      -- the fields are edited in order of arrival; put in order they are those of the record, which is
      -- settled, so the constructor of records takes them as they are
      have hmade := hp.fields
      have hbefore := settled_recordFields hsettled
      obtain ⟨edited, hedited, harrived⟩ := editGiven_eq
        (FieldsSpelt.apply fields hentries hmade.contents habove)
        (fun e he => ⟨hmade.table.proper e he, hmade.contents e he⟩)
        (Arrived.of_settled (parallel_types _) hbefore.table) hbefore
      have hafter := settled_applyFields hmade hbefore
      have hfill := Graph.fillSchema_eq "record" (f := {}) hafter.table rfl
      rw [Graph.applyGivenAt_modify hnew hnode hfields, Graph.fieldsOf_eq hcurrent, Step.ok_bind,
        hedited, Step.ok_bind, eq_map_of_parallel harrived.parallel, hfill]
      rfl

/-- What spells fields does to types what the fields do. -/
theorem FieldsSpelt.apply {g : Graph} {bound : Nat} : ∀ (fields : List (String × Production))
    {entries : Entries Value}, FieldsSpelt g bound fields entries → (∀ e ∈ fields, e.2.Made) →
      ∀ {visiting : List Nat}, (∀ i ∈ visiting, bound ≤ i) →
        Parallel (AppliesAs fun v w => g.applyGivenAt visiting v w) entries fields
  | [], entries, he, _, _, _ => by
      obtain rfl : entries = [] := he
      exact .nil
  | (name, p) :: rest, _, ⟨v, later, he, hv, hlater⟩, hmade, visiting, hvisiting => by
      subst he
      obtain ⟨hp, hrest⟩ := List.forall_mem_cons.1 hmade
      refine .cons ⟨rfl, fun current hc => ?_⟩ (FieldsSpelt.apply rest hlater hrest hvisiting)
      have happly := Spelt.apply p hv hp hvisiting (readable_stored? g current)
      rw [standsFor_stored?] at happly
      exact happly hc

end

/-- **A production that is given does to a value what it says.** -/
theorem applyGiven_spelt {g : Graph} {p : Production} {w : Value} (hw : p.Spelt g g.size w)
    (hp : p.Made) {current : Value} (hc : g.Readable current)
    (hsettled : ∀ t, g.standsFor current = some t → t.Settled) :
    g.applyGiven current w = .ok ((stored? (p.apply (g.standsFor current))).getD .absent) :=
  hw.apply p hp (fun _ h => absurd h List.not_mem_nil) hc hsettled

/-- **Productions that are given do to a table of types what they say.** -/
theorem effectOfGiven_spelt {g : Graph} : ∀ {ps : Produced} {entries : Entries Value},
    FieldsSpelt g g.size ps entries → (∀ e ∈ ps, e.2.Made) →
      ∀ {table : Entries TypeSpec}, SettledTypes table →
        g.effectOfGiven entries (table.map fun e => (e.1, .type e.2)) =
          (none, (applyAll ps table).map fun e => (e.1, .type e.2))
  | [], entries, he, _, table, _ => by
      obtain rfl : entries = [] := he
      rfl
  | (name, p) :: ps, _, ⟨v, later, he, hv, hlater⟩, hmade, table, htable => by
      subst he
      obtain ⟨hp, hrest⟩ := List.forall_mem_cons.1 hmade
      have htypes := parallel_types table
      have hcurrent := getD_of_isType (htypes.find? name)
      have happly := applyGiven_spelt hv hp (readable_stored? g (table.find? name))
      rw [standsFor_stored?] at happly
      rw [Graph.effectOfGiven, hcurrent, happly (htable name), applyAll]
      cases ht : p.apply (table.find? name) with
      | none =>
          refine Eq.trans ?_ (effectOfGiven_spelt hlater hrest (htable.erase name))
          exact congrArg _ (eq_map_of_parallel (htypes.erase name))
      | some t =>
          have hnext := htable.put name (hp.apply (htable name) t ht)
          refine Eq.trans ?_ (effectOfGiven_spelt hlater hrest hnext)
          exact congrArg _ (eq_map_of_parallel (htypes.put rfl))

end Production

/-! ## 3. Copies of what is given -/

namespace Graph

/-- A sealed copy of one production; types, and operations other than modifications, stay as they
    are. -/
def copyAt (g : Graph) (visiting : List Nat) (w : Value) (h : Graph) : Graph × Value :=
  match g.givenOperation? w with
  | some (.modify fields) =>
    let (h, table) := g.addSealedAt visiting fields h
    h.add (.object (.sealed none) [("op", .text "modify"), ("fields", table)])
  | _ => (h, w)

/-- A type is no operation. -/
theorem givenOperation?_type (g : Graph) (t : TypeSpec) : g.givenOperation? (.type t) = none := by
  have hline : g.line (.type t) = [.type t, .founder .object] := by
    rw [line, show g.size + 4 = (g.size + 3) + 1 from rfl]
    rfl
  have hown : t.parts.find? "op" = none := by cases t <;> rfl
  have hop : g.find (.type t) "op" = .absent := by
    simp only [find, workedOut?, hline, List.foldr_cons, List.foldr_nil, ownPart, listed, hown,
      unlisted]
    rfl
  have hpart : g.partOrAbsent (.type t) "op" = .absent := by
    simp only [partOrAbsent, part, hop]
  simp only [givenOperation?, hpart, Value.isObject, Bool.not_true, Bool.false_eq_true, if_false]

variable {g : Graph} {visiting : List Nat} {id : Nat} {lineage : Lineage}

theorem addSealedAt_table {entries : Entries Value} (hnew : id ∉ visiting)
    (hnode : g.node? id = some (.object lineage entries)) (h : Graph) :
    g.addSealedAt visiting (.node id) h =
      (sealEntries (g.copyAt (id :: visiting)) entries h).1.add
        (.object (.sealed (sealEntries (g.copyAt (id :: visiting)) entries h).2.2)
          (sealEntries (g.copyAt (id :: visiting)) entries h).2.1) := by
  have hlisted : g.listed (.node id) = entries := by
    simp only [listed, node_of_node? hnode]
  rw [addSealedAt]
  dsimp only
  rw [dif_neg hnew, dif_pos (lt_size_of_node? hnode), hlisted]
  rfl

end Graph

namespace Production

mutual

/-- A copy spells what the original spells. -/
theorem Spelt.copied {g : Graph} {bound : Nat} : ∀ (p : Production) {w : Value},
    p.Spelt g bound w → p.Settled → bound ≤ g.size → ∀ {visiting : List Nat},
      (∀ i ∈ visiting, bound ≤ i) → ∀ {h : Graph}, g.KeptIn h → Added h p (g.copyAt visiting w h)
  | .type t, w, hw, _, _, visiting, _, h, _ => by
      obtain rfl : w = .type t := hw
      rw [Graph.copyAt, g.givenOperation?_type]
      exact ⟨.refl h, rfl⟩
  | .set t, w, hw, _, hbound, visiting, _, h, hgh => by
      -- only modifications are copied; what was given stays where it is
      have hmono := Spelt.mono hgh (Nat.le_trans hbound hgh.size_le) (.set t) hw
      obtain ⟨id, lineage, rfl, -, hnode⟩ := hw
      rw [Graph.copyAt, Graph.givenOperation?_set hnode]
      exact ⟨.refl h, hmono⟩
  | .drop, w, hw, _, _, visiting, _, h, _ => by
      obtain rfl : w = .drop := hw
      rw [Graph.copyAt, g.givenOperation?_drop]
      exact ⟨.refl h, rfl⟩
  | .modify fields, w, ⟨id, lineage, table, lineage', entries, hw, hid, hnode, htable, hfields,
      hentries⟩, hp, hbound, visiting, hvisiting, h, hgh => by
      subst hw
      have hbelow := Nat.lt_trans htable hid
      have hnew := Graph.not_visited hvisiting hbelow
      have habove := Graph.visiting_cons hvisiting (Nat.le_refl table) (Nat.le_of_lt hbelow)
      have hsettled := settled_modify_iff.1 hp
      obtain ⟨k, copies, hcopies, hkept, hspelt⟩ := FieldsSpelt.copied fields hentries
        (fun e he => ⟨(hsettled.table.proper e he).2, hsettled.productions e he⟩) (by omega) habove
        hgh
      rw [Graph.copyAt, Graph.givenOperation?_modify hnode]
      dsimp only
      rw [Graph.addSealedAt_table hnew hfields, hcopies]
      exact added_modify hkept hspelt _

/-- Copies spell what the originals spell, and none becomes an ancestor. -/
theorem FieldsSpelt.copied {g : Graph} {bound : Nat} : ∀ (fields : List (String × Production))
    {entries : Entries Value}, FieldsSpelt g bound fields entries →
      (∀ e ∈ fields, e.1 ≠ ancestorName ∧ e.2.Settled) → bound ≤ g.size →
        ∀ {visiting : List Nat}, (∀ i ∈ visiting, bound ≤ i) → ∀ {h : Graph}, g.KeptIn h →
          ∃ k copies, Graph.sealEntries (g.copyAt visiting) entries h = (k, copies, none) ∧
            h.KeptIn k ∧ FieldsSpelt k k.size fields copies
  | [], entries, he, _, _, _, _, h, _ => by
      obtain rfl : entries = [] := he
      exact ⟨h, [], rfl, .refl h, rfl⟩
  | (name, p) :: rest, _, ⟨v, later, he, hv, hlater⟩, hfields, hbound, visiting, hvisiting, h,
      hgh => by
      subst he
      obtain ⟨⟨hname, hp⟩, hrest⟩ := List.forall_mem_cons.1 hfields
      obtain ⟨hkept, hspelt⟩ := Spelt.copied p hv hp hbound hvisiting hgh
      obtain ⟨k, copies, hcopies, hkept', hspelt'⟩ :=
        FieldsSpelt.copied rest hlater hrest hbound hvisiting (hgh.trans hkept)
      refine ⟨k, (name, (g.copyAt visiting v h).2) :: copies, ?_, hkept.trans hkept', _, copies, rfl,
        Spelt.mono hkept' hkept'.size_le p hspelt, hspelt'⟩
      rw [Graph.sealEntries]
      dsimp only
      rw [hcopies]
      dsimp only
      rw [if_neg hname]

end

/-- **A modification is made of a table that spells settled fields**, which pass its check. -/
theorem modifyOf_spelt {g : Graph} {table : Nat} {lineage : Lineage} {entries : Entries Value}
    {fields : Produced} (htable : g.node? table = some (.object lineage entries))
    (hspelt : FieldsSpelt g table fields entries) (hfields : fields.Settled) :
    ∃ r, g.modifyOf (.node table) = .ok r ∧ Added g (.modify fields) r := by
  have habove : ∀ i ∈ [table], table ≤ i := List.forall_mem_singleton.2 (Nat.le_refl table)
  obtain ⟨k, copies, hcopies, hkept, hcopied⟩ := FieldsSpelt.copied fields hspelt
    (fun e he => ⟨(hfields.table.proper e he).2, hfields.productions e he⟩)
    (Nat.le_of_lt (Graph.lt_size_of_node? htable)) habove (.refl g)
  refine ⟨_, ?_, added_modify hkept hcopied (.sealed none)⟩
  rw [Graph.modifyOf, Graph.producedOf_table htable hspelt hfields, Step.ok_bind,
    Graph.addSealedAt_table List.not_mem_nil htable, hcopies]
  rfl

end Production

/-! ## 4. Composition -/

/-- A value spells a production in a graph. -/
def Graph.Spells (g : Graph) (w : Value) (p : Production) : Prop := p.Spelt g g.size w

theorem Graph.Spells.mono {g h : Graph} (hgh : g.KeptIn h) {w : Value} {p : Production}
    (hw : g.Spells w p) : h.Spells w p := Production.Spelt.mono hgh hgh.size_le p hw

namespace Production

/-- A step that composes a production onto what is spelt before it. -/
def ComposesAs (step : Value → Value → Graph → Except Fault (Graph × Value)) (g : Graph)
    (w : Value) (l : Production) : Prop :=
  ∀ {h : Graph} {o : Option Value} {earlier : Option Production}, g.KeptIn h →
    Option.Rel h.Spells o earlier → (∀ p, earlier = some p → p.Made) →
      ∃ r, step (o.getD .absent) w h = .ok r ∧ Added h (compose earlier l) r

/-- **Fields that are composed in order of arrival arrive at the composed fields.** -/
theorem composeGivenFields_eq {step : Value → Value → Graph → Except Fault (Graph × Value)}
    {g : Graph} {entries : Entries Value} {fields : Produced}
    (hsteps : Parallel (ComposesAs step g) entries fields)
    (hmade : ∀ e ∈ fields, ProperName e.1 ∧ e.2.Made) :
    ∀ {h : Graph} {before : Entries Value} {bs : Produced}, g.KeptIn h →
      Arrived h.Spells before bs → bs.Made →
        ∃ k after, Graph.composeGivenFields step entries before h = .ok (k, after) ∧ h.KeptIn k ∧
          Arrived k.Spells after (composeFields fields bs) := by
  induction hsteps with
  | nil => exact fun {h} _ _ _ hbefore _ => ⟨h, _, rfl, .refl h, hbefore⟩
  | @cons e f entries fields hef _ ih =>
      intro h before bs hgh hbefore hbs
      obtain ⟨name, w⟩ := e
      obtain ⟨_, p⟩ := f
      obtain ⟨rfl, hstep⟩ := hef
      obtain ⟨⟨hname, hp⟩, hrest⟩ := List.forall_mem_cons.1 hmade
      have hearlier : ∀ q, bs.find? name = some q → q.Made := fun _ => hbs.find?
      obtain ⟨⟨k, q⟩, hq, hkept, hspelt⟩ := hstep hgh (hbefore.find? name) hearlier
      obtain ⟨m, after, hafter, hkept', harrived⟩ := ih hrest (hgh.trans hkept)
        ((hbefore.mono fun _ _ => Graph.Spells.mono hkept).put hspelt)
        (hbs.insert hname (hp.compose hearlier))
      refine ⟨m, after, ?_, hkept.trans hkept', harrived⟩
      rw [Graph.composeGivenFields, hq, Step.ok_bind]
      exact hafter

theorem parallel_of_fieldsSpelt {g : Graph} {bound : Nat} : ∀ {fields : Produced}
    {entries : Entries Value}, FieldsSpelt g bound fields entries →
      Parallel (fun w p => p.Spelt g bound w) entries fields
  | [], entries, he => by
      obtain rfl : entries = [] := he
      exact .nil
  | (_, _) :: _, _, ⟨_, _, he, hv, hlater⟩ => by
      subst he
      exact .cons ⟨rfl, hv⟩ (parallel_of_fieldsSpelt hlater)

theorem fieldsSpelt_of_parallel {g : Graph} {bound : Nat} {fields : Produced}
    {entries : Entries Value} (h : Parallel (fun w p => p.Spelt g bound w) entries fields) :
    FieldsSpelt g bound fields entries := by
  induction h with
  | nil => rfl
  | @cons e f _ _ hef _ ih => exact ⟨e.2, _, congrArg (· :: _) (Prod.ext hef.1 rfl), hef.2, ih⟩

/-- A production that replaces what is there is not a modification. -/
def Replaces : Production → Prop
  | modify _ => False
  | _ => True

end Production

namespace Graph

open Production (Replaces)

variable {g h : Graph} {visiting : List Nat} {id table : Nat} {lineage lineage' : Lineage}
  {entries : Entries Value}

theorem composeGivenAt_absent (later : Value) :
    g.composeGivenAt visiting .absent later h = .ok (h, later) := by
  unfold composeGivenAt
  exact if_pos rfl

/-- A production that replaces what is there takes the place of the earlier one. -/
theorem composeGivenAt_replaces {l : Production} (hl : l.Replaces) {w : Value} {bound : Nat}
    (hw : l.Spelt g bound w) (hvisiting : ∀ i ∈ visiting, bound ≤ i) (earlier : Value) :
    g.composeGivenAt visiting earlier w h = .ok (h, w) := by
  unfold composeGivenAt
  split
  · rfl
  · cases l with
    | type t =>
        obtain rfl : w = .type t := hw
        rfl
    | drop =>
        obtain rfl : w = .drop := hw
        rfl
    | set t =>
        obtain ⟨id, lineage, rfl, hid, hnode⟩ := hw
        have hnew := Graph.not_visited hvisiting hid
        have hop : g.operationWord (.node id) = .ok (.text "set") := part_own hnode rfl
        dsimp only
        rw [dif_neg hnew, dif_pos (lt_size_of_node? hnode), hop, Step.ok_bind]
        rfl
    | modify fields => exact hl.elim

section Modify

variable (hnew : id ∉ visiting)
  (hnode : g.node? id = some (.object lineage [("op", .text "modify"), ("fields", .node table)]))
  (htable : g.node? table = some (.object lineage' entries))

include hnode in
theorem operationWord_modify : g.operationWord (.node id) = .ok (.text "modify") :=
  part_own hnode rfl

include hnode htable in
theorem fieldsGiven_modify : g.fieldsGiven (.node id) = .ok entries := by
  have hfields : g.part (.node id) "fields" = .ok (.node table) := part_own hnode rfl
  rw [fieldsGiven, hfields, Step.ok_bind, partsOf_own htable]

include hnew hnode in
/-- A modification of what a production leaves for certain is worked out at once. -/
theorem composeGivenAt_worked {e : Production} (he : e.Replaces) {v : Value}
    (hv : h.Spells v e) :
    g.composeGivenAt visiting v (.node id) h = (do
      let result ← h.applyGiven ((stored? (e.apply none)).getD .absent) (.node id)
      h.setOf result) := by
  rw [composeGivenAt]
  have hword := operationWord_modify hnode
  cases e with
  | type t =>
      obtain rfl : v = .type t := hv
      rw [if_neg (by simp [Value.isAbsent])]
      dsimp only
      rw [dif_neg hnew, dif_pos (lt_size_of_node? hnode), hword, Step.ok_bind]
      rfl
  | set t =>
      obtain ⟨i, lineage, rfl, -, hset⟩ := hv
      have hearlier : h.operationWord (.node i) = .ok (.text "set") := part_own hset rfl
      have htype : h.typeSet (.node i) = .ok (.type t) := part_own hset rfl
      rw [if_neg (by simp [Value.isAbsent])]
      dsimp only
      rw [dif_neg hnew, dif_pos (lt_size_of_node? hnode), hword, Step.ok_bind, hearlier,
        Step.ok_bind, htype]
      rfl
  | drop =>
      obtain rfl : v = .drop := hv
      have hearlier : h.operationWord .drop = .ok (.text "drop") := h.part_drop
      rw [if_neg (by simp [Value.isAbsent])]
      dsimp only
      rw [dif_neg hnew, dif_pos (lt_size_of_node? hnode), hword, Step.ok_bind, hearlier]
      rfl
  | modify fields => exact he.elim

include hnew hnode htable in
/-- A modification of a modification is composed field by field, and what comes out is checked. -/
theorem composeGivenAt_modified {i : Nat} {before : Entries Value}
    (hword : h.operationWord (.node i) = .ok (.text "modify"))
    (hbefore : h.fieldsGiven (.node i) = .ok before) :
    g.composeGivenAt visiting (.node i) (.node id) h = (do
      let (k, fields) ← composeGivenFields
        (fun e l h => g.composeGivenAt (id :: visiting) e l h) entries before h
      (k.add (.object .plain (Entries.ofList fields))).1.modifyOf (.node k.size)) := by
  have hlater := operationWord_modify hnode
  have hafter := fieldsGiven_modify hnode htable
  rw [composeGivenAt, if_neg (by simp [Value.isAbsent])]
  simp only [dif_neg hnew, dif_pos (lt_size_of_node? hnode), hlater, hword, hbefore, hafter,
    Step.ok_bind]
  rfl

end Modify

end Graph

namespace Production

theorem composesAs_replaces {g : Graph} {bound : Nat} (l : Production) (hl : l.Replaces)
    {w : Value} (hw : l.Spelt g bound w) (hbound : bound ≤ g.size) {visiting : List Nat}
    (hvisiting : ∀ i ∈ visiting, bound ≤ i) :
    ComposesAs (fun e l h => g.composeGivenAt visiting e l h) g w l := by
  intro h o earlier hgh _ _
  have hcompose : compose earlier l = l := by
    cases l with
    | modify _ => exact hl.elim
    | _ => rfl
  refine ⟨_, Graph.composeGivenAt_replaces hl hw hvisiting _, .refl h, ?_⟩
  rw [hcompose]
  exact Spelt.mono hgh (Nat.le_trans hbound hgh.size_le) l hw

/-- A modification is worked out on what an earlier production leaves for certain. -/
theorem composed_onto_replaced {g h : Graph} {visiting : List Nat} {fields : Produced}
    {id table : Nat} {lineage : Lineage} (hnew : id ∉ visiting)
    (hnode : g.node? id = some (.object lineage [("op", .text "modify"), ("fields", .node table)]))
    (hlater : h.Spells (.node id) (modify fields)) (hmade : fields.Made) {e : Production}
    (he : e.Made) (hreplaces : e.Replaces) {v : Value} (hv : h.Spells v e) :
    ∃ r, g.composeGivenAt visiting v (.node id) h = .ok r ∧
      Added h (compose (some e) (modify fields)) r := by
  have hsettled : ∀ t, e.apply none = some t → t.Settled := he.apply fun _ ht => by cases ht
  have happly := applyGiven_spelt hlater (made_modify hmade) (readable_stored? h (e.apply none))
  rw [standsFor_stored?] at happly
  have hcompose : compose (some e) (modify fields) =
      .set (.record (applyFields fields (recordFields (e.apply none))) none) := by
    cases e with
    | modify _ => exact hreplaces.elim
    | _ => rfl
  rw [Graph.composeGivenAt_worked hnew hnode hreplaces hv, happly hsettled, Step.ok_bind, hcompose]
  exact ⟨_, rfl, added_set _ h⟩

/-- A modification is composed field by field onto an earlier one. -/
theorem composed_onto_modified {g h : Graph} {visiting : List Nat} {fields before : Produced}
    {id table i : Nat} {lineage lineage' : Lineage} {entries : Entries Value} (hgh : g.KeptIn h)
    (hnew : id ∉ visiting)
    (hnode : g.node? id = some (.object lineage [("op", .text "modify"), ("fields", .node table)]))
    (htable : g.node? table = some (.object lineage' entries)) (hmade : fields.Made)
    (hfields : Parallel (ComposesAs (fun e l h => g.composeGivenAt (id :: visiting) e l h) g)
      entries fields)
    (hbefore : before.Made) (hi : h.Spells (.node i) (modify before)) :
    ∃ r, g.composeGivenAt visiting (.node i) (.node id) h = .ok r ∧
      Added h (compose (some (modify before)) (modify fields)) r := by
  obtain ⟨_, _, table', _, begun, hnode', -, hop', -, htable', hspelt⟩ := hi
  cases hnode'
  have hbegun : Arrived h.Spells begun before :=
    Arrived.of_settled (parallel_of_fieldsSpelt (FieldsSpelt.mono (.refl h)
      (Nat.le_of_lt (Graph.lt_size_of_node? htable')) before hspelt)) hbefore.table
  obtain ⟨k, after, hafter, hkept, harrived⟩ := composeGivenFields_eq hfields
    (fun e he => ⟨hmade.table.proper e he, hmade.contents e he⟩) hgh hbegun hbefore
  -- what was composed goes into a table of its own, which passes the check of modifications
  have hcomposed := made_composeFields hmade hbefore
  have hadd := k.keptIn_add (.object .plain (Entries.ofList after))
  obtain ⟨r, hr, hadded⟩ := modifyOf_spelt (k.node?_add_self (.object .plain (Entries.ofList after)))
    (FieldsSpelt.mono hadd (Nat.le_refl _) _ (fieldsSpelt_of_parallel harrived.parallel))
    (settled_modify_iff.1 (made_modify hcomposed).settled)
  refine ⟨r, ?_, (hkept.trans hadd).trans hadded.kept, hadded.spelt⟩
  rw [Graph.composeGivenAt_modified hnew hnode htable (Graph.operationWord_modify hop')
    (Graph.fieldsGiven_modify hop' htable'), hafter, Step.ok_bind]
  exact hr

/-- What spells a modification is composed onto what is spelt before it, where its fields are. -/
theorem composesAs_modify {g : Graph} {bound : Nat} {fields : Produced} {w : Value}
    (hw : (modify fields).Spelt g bound w) (hmade : fields.Made) (hbound : bound ≤ g.size)
    {visiting : List Nat} (hvisiting : ∀ i ∈ visiting, bound ≤ i)
    (hfields : ∀ {table : Nat} {entries : Entries Value} {inside : List Nat}, table < bound →
      FieldsSpelt g table fields entries → (∀ i ∈ inside, table ≤ i) →
        Parallel (ComposesAs (fun e l h => g.composeGivenAt inside e l h) g) entries fields) :
    ComposesAs (fun e l h => g.composeGivenAt visiting e l h) g w (modify fields) := by
  intro h o earlier hgh ho hearlier
  have hlater : h.Spells w (modify fields) :=
    Spelt.mono hgh (Nat.le_trans hbound hgh.size_le) (modify fields) hw
  obtain ⟨id, lineage, table, lineage', entries, rfl, hid, hnode, htable, hentries, hspelt⟩ := hw
  have hnew := Graph.not_visited hvisiting hid
  have habove := Graph.visiting_cons hvisiting (Nat.le_of_lt htable)
    (Nat.le_of_lt (Nat.lt_trans htable hid))
  cases ho with
  | none => exact ⟨_, Graph.composeGivenAt_absent _, .refl h, hlater⟩
  | @some v e hv =>
      have he := hearlier e rfl
      cases e with
      | modify before =>
          have hinside := hfields (Nat.lt_trans htable hid) hspelt habove
          have ⟨i, _, _, _, _, hi, _⟩ := hv
          subst hi
          exact composed_onto_modified hgh hnew hnode hentries hmade hinside he.fields hv
      | type _ => exact composed_onto_replaced hnew hnode hlater hmade he trivial hv
      | set _ => exact composed_onto_replaced hnew hnode hlater hmade he trivial hv
      | drop => exact composed_onto_replaced hnew hnode hlater hmade he trivial hv

mutual

/-- **What spells a production is composed onto what is spelt before it**, inside operations that
    stand above. -/
theorem Spelt.composesAs {g : Graph} {bound : Nat} : ∀ (l : Production) {w : Value},
    l.Spelt g bound w → l.Made → bound ≤ g.size → ∀ {visiting : List Nat},
      (∀ i ∈ visiting, bound ≤ i) →
        ComposesAs (fun e l h => g.composeGivenAt visiting e l h) g w l
  | .modify fields, _, hw, hmade, hbound, _, hvisiting =>
      composesAs_modify hw hmade.fields hbound hvisiting fun htable hspelt hinside =>
        FieldsSpelt.composesAs fields hspelt hmade.fields.contents (by omega) hinside
  | .type t, _, hw, _, hbound, _, hvisiting =>
      composesAs_replaces (.type t) trivial hw hbound hvisiting
  | .set t, _, hw, _, hbound, _, hvisiting =>
      composesAs_replaces (.set t) trivial hw hbound hvisiting
  | .drop, _, hw, _, hbound, _, hvisiting => composesAs_replaces .drop trivial hw hbound hvisiting

theorem FieldsSpelt.composesAs {g : Graph} {bound : Nat} : ∀ (fields : List (String × Production))
    {entries : Entries Value}, FieldsSpelt g bound fields entries → (∀ e ∈ fields, e.2.Made) →
      bound ≤ g.size → ∀ {visiting : List Nat}, (∀ i ∈ visiting, bound ≤ i) →
        Parallel (ComposesAs (fun e l h => g.composeGivenAt visiting e l h) g) entries fields
  | [], entries, he, _, _, _, _ => by
      obtain rfl : entries = [] := he
      exact .nil
  | (name, p) :: rest, _, ⟨v, later, he, hv, hlater⟩, hmade, hbound, visiting, hvisiting => by
      subst he
      obtain ⟨hp, hrest⟩ := List.forall_mem_cons.1 hmade
      exact .cons ⟨rfl, Spelt.composesAs p hv hp hbound hvisiting⟩
        (FieldsSpelt.composesAs rest hlater hrest hbound hvisiting)

end

/-- **Two productions that are given compose to what `compose` says.** -/
theorem composeGiven_spelt {g : Graph} {o : Option Value} {earlier : Option Production}
    (ho : Option.Rel g.Spells o earlier) (hearlier : ∀ p, earlier = some p → p.Made)
    {l : Production} {w : Value} (hw : g.Spells w l) (hl : l.Made) :
    ∃ r, g.composeGiven (o.getD .absent) w = .ok r ∧ Added g (compose earlier l) r :=
  Spelt.composesAs l hw hl (Nat.le_refl _) (fun _ h => absurd h List.not_mem_nil) (.refl g) ho
    hearlier

end Production

end SchemaFlow
