import SchemaFlow.Proofs.Chain.Soundness
import SchemaFlow.Proofs.Observation.Nodes
import SchemaFlow.Proofs.Production.Refinement

/-!
# From types to data

A chain that is checked against the types of a schema is checked against the data that conforms to
the schema, provided that data is not seen as something else on the way. The two checks go side by
side, one over types and one over data, and the data meets the types all along
(`Meets.effectOn_data`). A modification of a value is the one step that looks at it without a word of
what the schema declares: what it sees of the fields that it keeps has to be what is declared
(`SeenAsDeclared`). From then on the name has a type in both tables.

* `Chain.checkStatic_carries`: what is found clean of the types is found clean of the data.
* `Chain.not_carried`: without the proviso this is false, because an empty list says nothing of what
  it could hold.
-/

namespace SchemaFlow

/-! ## 1. The first production of a name -/

/-- The first production that a row of stages has for a name. -/
def firstProduction (ls : List (String × Contract)) (key : String) : Option Production :=
  ls.findSome? fun l => l.2.produced.find? key

theorem firstProduction_cons (l : String × Contract) (ls : List (String × Contract))
    (key : String) :
    firstProduction (l :: ls) key = (l.2.produced.find? key).or (firstProduction ls key) := by
  unfold firstProduction
  rw [List.findSome?_cons]
  cases l.2.produced.find? key <;> rfl

variable {g : Graph} {declared actual : Entries Value}

/-- What a modification sees of the data refines what it sees of the types, in the fields that it
    neither sets nor drops. -/
def SeenAs (g : Graph) (fields : Produced) (declared actual : Value) : Prop :=
  ∀ name, ¬ Production.Overwrites fields name →
    Refines ((Production.recordFields (g.standsFor declared)).find? name)
      ((Production.recordFields (g.standsFor actual)).find? name)

/-- Where the first production of a name is a modification, it sees of the data what it sees of the
    types. -/
def SeenAlong (g : Graph) (ls : List (String × Contract)) (declared actual : Entries Value) : Prop :=
  ∀ key fields, firstProduction ls key = some (.modify fields) →
    SeenAs g fields (valueAt declared key) (valueAt actual key)

/-- Where the first production of a name is a modification, each declared field that it neither sets
    nor drops is seen in the payload with a type that may stand for the declared one, although the
    declaration is not at hand. -/
def SeenAsDeclared (g : Graph) (ls : List (String × Contract)) (s : Schema)
    (data : Entries Value) : Prop :=
  ∀ key fields, firstProduction ls key = some (.modify fields) →
    ∀ name t, ¬ Production.Overwrites fields name →
      (Production.recordFields (s.find? key)).find? name = some t →
      ∃ u, (Production.recordFields (g.standsFor (valueAt data key))).find? name = some u ∧
        t.isCompatible u = true

theorem standsFor_valueAt_typed (g : Graph) (s : Schema) (key : String) :
    g.standsFor (valueAt (typed s) key) = s.find? key := by
  rw [valueAt, find?_typed]
  exact standsFor_stored? g _

theorem SeenAsDeclared.along {ls : List (String × Contract)} {s : Schema} {data : Entries Value}
    (h : SeenAsDeclared g ls s data) : SeenAlong g ls (typed s) data := by
  intro key fields hfirst name hname t ht
  rw [standsFor_valueAt_typed] at ht
  exact h key fields hfirst name t hname ht

/-! ## 2. One stage -/

/-- What is known of the data under a name refines what is declared, once it is a type. -/
theorem Meets.refines (h : Meets g declared actual) {key : String}
    (htype : ∀ v, actual.find? key = some v → ∃ u, v = .type u) :
    Refines (g.standsFor (valueAt declared key)) (g.standsFor (valueAt actual key)) := by
  intro t ht
  obtain ⟨_, hconforms⟩ := h.known key t ht
  cases hv : actual.find? key with
  | none =>
      rw [valueAt_of_find?_none hv] at hconforms
      cases hconforms.1
  | some v =>
      obtain ⟨w, rfl⟩ := htype v hv
      rw [valueAt_of_find? hv] at hconforms ⊢
      exact ⟨w, g.standsFor_type w, Graph.conforms_type_iff.1 hconforms⟩

/-- A production leaves a type of the data that may stand for the one that it leaves of the types. -/
theorem Meets.apply_refines (h : Meets g declared actual) {key : String} {p : Production}
    (hp : p.WellFormed)
    (hseen : ∀ fields, p = .modify fields →
      SeenAs g fields (valueAt declared key) (valueAt actual key)) :
    Refines (p.apply (g.standsFor (valueAt declared key)))
      (p.apply (g.standsFor (valueAt actual key))) := by
  have hknown : ∀ t, g.standsFor (valueAt declared key) = some t → t.WellFormed :=
    fun t ht => (h.known key t ht).1
  by_cases hmodify : ∃ fields, p = .modify fields
  · obtain ⟨fields, rfl⟩ := hmodify
    exact Production.modify_refines hp hknown (hseen fields rfl)
  · have hsame := Production.apply_eq_of_not_modify (fun sub e => hmodify ⟨sub, e⟩)
      (g.standsFor (valueAt actual key)) (g.standsFor (valueAt declared key))
    rw [hsame]
    exact .refl (hp.apply hknown)

/-- **The data still meets the types behind a stage.** -/
theorem Meets.effectOn_data (h : Meets g declared actual) {ps : Produced} (hps : ps.WellFormed)
    (hactual : g.ReadableTable actual)
    (hseen : ∀ key fields, ps.find? key = some (.modify fields) →
      SeenAs g fields (valueAt declared key) (valueAt actual key))
    {declared' actual' : Entries Value}
    (hdeclared' : SchemaFlow.effectOn g ps declared = .ok declared')
    (hactual' : SchemaFlow.effectOn g ps actual = .ok actual') : Meets g declared' actual' := by
  intro key v hv
  rw [find?_effectOn hps.distinct h.readable hdeclared' key] at hv
  unfold valueAt
  rw [find?_effectOn hps.distinct hactual hactual' key]
  cases hp : ps.find? key with
  | none =>
      rw [hp] at hv
      exact h key v hv
  | some p =>
      rw [hp] at hv
      have hpw := (hps.find? hp).2
      obtain ⟨t, ht, rfl⟩ := Option.map_eq_some_iff.1 hv
      obtain ⟨u, hu, hcompatible⟩ :=
        h.apply_refines hpw (fun fields e => hseen key fields (e ▸ hp)) t ht
      have hwf : t.WellFormed := hpw.apply (fun t ht => (h.known key t ht).1) t ht
      refine ⟨t, rfl, hwf, ?_⟩
      simp only [hu, stored?, Option.map_some, Option.getD_some]
      exact Graph.conforms_type_iff.2 hcompatible

/-- Behind a stage a modification that is the first from there on sees what it would have seen, or a
    type. -/
theorem SeenAlong.effectOn {l : String × Contract} {ls : List (String × Contract)}
    (h : SeenAlong g (l :: ls) declared actual) (hl : l.2.produced.Distinct)
    (hdeclared : g.ReadableTable declared) (hactual : g.ReadableTable actual)
    {declared' actual' : Entries Value} (hdeclared' : effectOn g l.2.produced declared = .ok declared')
    (hactual' : effectOn g l.2.produced actual = .ok actual')
    (hmeets : Meets g declared' actual') : SeenAlong g ls declared' actual' := by
  intro key fields hfirst
  have hfind := find?_effectOn hl hdeclared hdeclared' key
  have hfind' := find?_effectOn hl hactual hactual' key
  cases hp : l.2.produced.find? key with
  | none =>
      have hsame := h key fields (by rw [firstProduction_cons, hp]; exact hfirst)
      unfold valueAt at hsame ⊢
      rw [hfind, hfind', hp]
      exact hsame
  | some p =>
      intro name _
      refine Production.recordFields_refines (hmeets.refines fun v hv => ?_) name
      rw [hfind', hp] at hv
      obtain ⟨u, -, rfl⟩ := Option.map_eq_some_iff.1 hv
      exact ⟨u, rfl⟩

/-- Data that can be observed under every hint. -/
def ObservableTable (g : Graph) (data : Entries Value) : Prop :=
  ∀ key v, data.find? key = some v → g.Observable v

namespace ObservableTable

theorem readable (h : ObservableTable g actual) : g.ReadableTable actual :=
  fun key v hv => h key v hv _

theorem valueAt (h : ObservableTable g actual) (key : String) :
    g.Observable (valueAt actual key) := by
  unfold SchemaFlow.valueAt
  cases hv : actual.find? key with
  | none => exact g.tame_absent.observable
  | some v => exact h key v hv

/-- Types can be observed, and nothing but types is new behind a stage. -/
theorem effectOn (h : ObservableTable g actual) {ps : Produced} (hd : ps.Distinct)
    {actual' : Entries Value} (hactual' : SchemaFlow.effectOn g ps actual = .ok actual') :
    ObservableTable g actual' := by
  intro key v hv
  rcases type_or_kept_of_effectOn hd h.readable hactual' hv with ⟨t, rfl⟩ | hkept
  · exact fun hint => ⟨t, g.observe_type hint t⟩
  · exact h key v hkept

end ObservableTable

/-! ## 3. A chain -/

/-- **A walk over types that finds nothing is followed by a walk over data that finds nothing.** -/
theorem Walk.carried {pass pass' : Pass} (hphase : pass.phase = .transform)
    (hphase' : pass'.phase = .transform) {ls : List (String × Contract)} {last : Entries Value}
    {founds : List (List Violation)} (h : Walk g pass ls declared founds last) :
    (∀ l ∈ ls, l.2.WellFormed) → (∀ l ∈ ls, pass'.counts l.1 = true) → founds.flatten = [] →
      ∀ {actual : Entries Value}, ObservableTable g actual → Meets g declared actual →
      SeenAlong g ls declared actual →
      ∃ founds' last', Walk g pass' ls actual founds' last' ∧ founds'.flatten = [] := by
  induction h with
  | nil _ => exact fun _ _ _ actual _ _ _ => ⟨[], actual, .nil actual, rfl⟩
  | @cons stage c rest declared declared' last found later hcheck hnext _ ih =>
      intro hls hcounts hclean actual hactual hmeets hseen
      obtain ⟨hc, hls⟩ := List.forall_mem_cons.1 hls
      obtain ⟨hcount, hcounts⟩ := List.forall_mem_cons.1 hcounts
      rw [List.flatten_cons] at hclean
      obtain ⟨rfl, hclean⟩ := List.append_eq_nil_iff.1 hclean
      have hinput := hmeets.demands hphase hc hactual.valueAt hcheck (some stage)
        (.slot .transformRequires)
      have hcheck' : pass'.check g stage c actual = .ok [] := by
        refine Pass.check_eq_ok.2 ⟨[], ?_, ?_⟩
        · rw [hphase']
          exact hinput
        · simp [Pass.unfitted, hphase', Contract.fitMissing, hcount]
      obtain ⟨actual', hactual', _⟩ := effectOn_eq hc.produced.distinct hactual.readable
      have hmeets' := hmeets.effectOn_data hc.produced hactual.readable
        (fun key fields hp => hseen key fields (by rw [firstProduction_cons, hp]; rfl)) hnext hactual'
      have hseen' := hseen.effectOn hc.produced.distinct hmeets.readable hactual.readable hnext
        hactual' hmeets'
      obtain ⟨founds', last', hwalk, hempty⟩ := ih hls hcounts hclean
        (hactual.effectOn hc.produced.distinct hactual') hmeets' hseen'
      exact ⟨[] :: founds', last', .cons hcheck' hactual' hwalk, hempty⟩

/-- **What is found clean of the types is found clean of the data.** Where the static check finds
nothing wrong with a chain and the types of a schema, the check of a payload that conforms to the
schema finds nothing wrong either, every stage counting as fitted, provided that every declared field
that the first modification of a name keeps is seen as declared. -/
theorem Chain.checkStatic_carries {chain : Chain} (hchain : chain.WellFormed) {s : Schema}
    (hs : ∀ e ∈ s, e.2.WellFormed) (hstatic : chain.checkStatic g (typed s) .transform = .ok [])
    {data : Entries Value} (hdata : ∀ e ∈ data, g.Observable e.2) {owner : Option String}
    {heading : Heading} (hstart : checkSchema g owner heading data s = .ok [])
    (hseen : SeenAsDeclared g chain.leaves s data) :
    chain.checkTransform g data (chain.leaves.map Prod.fst) = .ok [] := by
  obtain ⟨founds, last, hwalk, hclean⟩ := Chain.walk_of_pass hstatic
  have hls : ∀ l ∈ chain.leaves, l.2.WellFormed := fun _ hl => hchain.of_mem_leaves hl
  have hfitted : ∀ l ∈ chain.leaves, Pass.counts
      { phase := .transform, fitted := some (chain.leaves.map Prod.fst) } l.1 = true :=
    fun l hl => List.contains_iff_mem.2 (List.mem_map_of_mem hl)
  obtain ⟨founds', last', hwalk', hempty⟩ := hwalk.carried rfl rfl hls hfitted hclean.symm
    (fun _ _ hv => hdata _ (Entries.mem_of_find? hv)) (.of_checkSchema hs hstart) hseen.along
  exact (Chain.violations_of_walk hwalk').trans (congrArg _ hempty)

/-! ## 4. A row with a list in it -/

/-- A row with a list in it, and the row as a stage has marked it. -/
def Graph.listSample (items : List Value) : Graph :=
  ⟨#[.list items, .object .plain [("xs", .node 0)],
    .object .plain [("xs", .node 0), ("seen", .bool true)]]⟩

/-- A stage that marks a row. -/
def Contract.stamping : Contract where
  produced := [("row", .modify [("seen", .set (.scalar .boolean))])]

/-- What is declared of the row. -/
def listSchema : Schema := [("row", .record [("xs", .sequence (.scalar .string))] none)]

/-- A stage that reads the list of a row. -/
def Contract.joining : Contract where
  transformRequires := listSchema

def Chain.listSample : Chain := ⟨[("stamp", .stage .stamping), ("join", .stage .joining)]⟩

/-- The payload with the row. -/
def listPayload : Entries Value := [("row", .node 1)]

section ListSample

variable {items : List Value} (hitems : ∀ w ∈ items, Graph.Atom w)

include hitems

theorem Graph.listSample_sheet : (listSample items).Sheet 1 [("xs", .node 0)] where
  node := rfl
  undescribed := rfl
  proper := by simp [ProperName, ancestorName]
  cells := by
    simp only [List.forall_mem_singleton]
    exact .list rfl hitems

/-- The row is seen with what is seen in its list. -/
theorem Graph.listSample_observe {fs : Schema} {e : TypeSpec}
    (he : listType (fun _ w => leafType w) ((Hint.table fs none).part "xs") items =
      .ok (.sequence e)) :
    (listSample items).observe (some (.record fs none)) (.node 1) =
      .ok (.record [("xs", .sequence e)] none) := by
  have hxs : (listSample items).observeAt [] [] ((Hint.table fs none).part "xs") (.node 0) =
      .ok (.sequence e) := (observeAt_atoms rfl hitems _).trans he
  refine ((listSample_sheet hitems).observeAt _).trans ?_
  have hfields : observeFields (fun hint w => (listSample items).observeAt [] [] hint w)
      (Hint.table fs none) {} [("xs", .node 0)] =
      .ok { entries := [("xs", .sequence e)] } := by
    rw [observeFields_cons rfl hxs rfl]
    rfl
  have hsort : (Hint.ofType? (some (.record fs none))).sort? = some "record" := rfl
  rw [tableType, if_pos hsort]
  exact (Step.bind_of_ok hfields _).trans rfl

/-- What the check of the sample finds is what its last stage finds of the marked row. -/
theorem Chain.listSample_checked {e : TypeSpec}
    (he : listType (fun _ w => leafType w) .none items = .ok (.sequence e)) {found : List Violation}
    (hfound : checkSchema (Graph.listSample items) (some "join") (.slot .transformRequires)
      [("row", .type (.record [("xs", .sequence e), ("seen", .scalar .boolean)] none))] listSchema =
        .ok found) :
    listSample.checkTransform (Graph.listSample items) listPayload ["stamp", "join"] =
      .ok found := by
  have hobserve : (Graph.listSample items).observe (some TypeSpec.emptyRecord) (.node 1) =
      .ok (.record [("xs", .sequence e)] none) := Graph.listSample_observe hitems he
  have hstamp : effectOn (Graph.listSample items) Contract.stamping.produced listPayload =
      .ok [("row", .type (.record [("xs", .sequence e), ("seen", .scalar .boolean)] none))] := by
    simp only [Contract.stamping, listPayload, effectOn, Production.applyTo, Graph.fieldsOf,
      Entries.find?, if_true, Option.getD_some, hobserve]
    rfl
  have hwalk : Walk (Graph.listSample items)
      { phase := .transform, fitted := some ["stamp", "join"] } listSample.leaves listPayload
      [[], found] _ :=
    .cons rfl hstamp
      (.cons (Pass.check_eq_ok.2 ⟨found, hfound, (List.append_nil found).symm⟩) rfl (.nil _))
  refine (Chain.violations_of_walk hwalk).trans ?_
  simp

theorem Graph.listSample_tame : ∀ e ∈ listPayload, (listSample items).Tame e.2 := by
  simp only [listPayload, List.forall_mem_singleton]
  exact (listSample_sheet hitems).tame

/-- A row whose list holds nothing but texts conforms to what is declared of it. -/
theorem Graph.listSample_conforms
    (htexts : listType (fun _ w => leafType w) (.type (.sequence (.scalar .string))) items =
      .ok (.sequence (.scalar .string))) (owner : Option String) (heading : Heading) :
    checkSchema (listSample items) owner heading listPayload listSchema = .ok [] := by
  refine checkSchema_eq_nil_iff.2 ?_
  simp only [listSchema, List.forall_mem_singleton, verdict_none_iff]
  exact ⟨rfl, _, listSample_observe hitems htexts, rfl⟩

end ListSample

theorem Chain.listSample_clean (g : Graph) :
    listSample.checkStatic g (typed listSchema) .transform = .ok [] := by
  have hstamp : effectOn g Contract.stamping.produced (typed listSchema) =
      .ok [("row", .type (.record [("xs", .sequence (.scalar .string)), ("seen", .scalar .boolean)]
        none))] := by
    simp only [Contract.stamping, typed, listSchema, List.map_cons, List.map_nil, effectOn,
      Production.applyTo, Graph.fieldsOf, Entries.find?, if_true, Option.getD_some,
      Graph.observe_type]
    rfl
  have hjoin : ({ phase := .transform } : Pass).check g "join" .joining
      [("row", .type (.record [("xs", .sequence (.scalar .string)), ("seen", .scalar .boolean)]
        none))] = .ok [] := by
    simp only [Pass.check, Contract.checkTransform, Contract.joining, listSchema, checkSchema,
      checkKey, Entries.find?, if_true, Option.getD_some, Graph.observe_type]
    rfl
  exact Chain.violations_of_walk (c := listSample) (.cons rfl hstamp (.cons hjoin rfl (.nil _)))

/-- The sample edits nothing but the row. -/
theorem Chain.listSample_edits {key : String} {fields : Produced}
    (h : firstProduction listSample.leaves key = some (.modify fields)) : key = "row" := by
  have hleaves : listSample.leaves = [("stamp", .stamping), ("join", .joining)] := rfl
  rw [hleaves, firstProduction_cons, firstProduction_cons] at h
  simp only [Contract.stamping, Contract.joining, Entries.find?, firstProduction] at h
  grind

/-- The sample on a row whose list holds a text. -/
theorem Chain.checkStatic_carries_text :
    listSample.checkStatic (Graph.listSample [.text "a"]) (typed listSchema) .transform = .ok [] ∧
      checkSchema (Graph.listSample [.text "a"]) none (.slot .transformRequires) listPayload
        listSchema = .ok [] ∧
      SeenAsDeclared (Graph.listSample [.text "a"]) listSample.leaves listSchema listPayload ∧
      listSample.checkTransform (Graph.listSample [.text "a"]) listPayload
        (listSample.leaves.map Prod.fst) = .ok [] := by
  have hitems : ∀ w ∈ [Value.text "a"], Graph.Atom w := by
    simp only [List.forall_mem_singleton]
    exact ⟨rfl, by simp, _, rfl⟩
  have hdata : ∀ e ∈ listPayload, (Graph.listSample [.text "a"]).Observable e.2 :=
    fun e he => (Graph.listSample_tame hitems e he).observable
  have hstart := Graph.listSample_conforms hitems rfl none (.slot .transformRequires)
  have hseen : SeenAsDeclared (Graph.listSample [.text "a"]) listSample.leaves listSchema
      listPayload := by
    intro key fields hfirst name t _ ht
    obtain rfl := Chain.listSample_edits hfirst
    have hobserve : (Graph.listSample [.text "a"]).observe (some TypeSpec.emptyRecord) (.node 1) =
        .ok (.record [("xs", .sequence (.scalar .string))] none) :=
      Graph.listSample_observe hitems rfl
    have hsees : (Graph.listSample [.text "a"]).standsFor (valueAt listPayload "row") =
        listSchema.find? "row" := by
      show (Graph.listSample [.text "a"]).standsFor (.node 1) = _
      unfold Graph.standsFor
      rw [hobserve]
      rfl
    have hschema : ∀ e ∈ listSchema, e.2.WellFormed := by decide
    have hrecord : Schema.WellFormed (Production.recordFields (listSchema.find? "row")) :=
      Production.wellFormed_recordFields fun u hu => hschema _ (Entries.mem_of_find? hu)
    rw [hsees]
    exact ⟨t, ht, TypeSpec.isCompatible_self (hrecord.find? ht).2⟩
  exact ⟨listSample_clean _, hstart, hseen, Chain.checkStatic_carries (by decide) (by decide)
    (listSample_clean _) hdata hstart hseen⟩

/-- A row whose list is empty conforms to what is declared of it. The stage that marks the row sees
    a list that could hold anything, and this is not what the next stage asks for. -/
theorem Chain.not_carried :
    listSample.WellFormed ∧ (∀ e ∈ listSchema, e.2.WellFormed) ∧
      (∀ e ∈ listPayload, (Graph.listSample []).Tame e.2) ∧
      checkSchema (Graph.listSample []) none (.slot .transformRequires) listPayload listSchema =
        .ok [] ∧
      listSample.checkStatic (Graph.listSample []) (typed listSchema) .transform = .ok [] ∧
      listSample.checkTransform (Graph.listSample []) listPayload
        (listSample.leaves.map Prod.fst) =
        .ok [⟨some "join", .misfit (.slot .transformRequires) "row"
          (.record [("xs", .sequence (.scalar .string))] none)
          (.record [("xs", .sequence (.handle "unknown")), ("seen", .scalar .boolean)] none)
          .type⟩] := by
  have hitems : ∀ w ∈ ([] : List Value), Graph.Atom w := by simp
  refine ⟨by decide, by decide, Graph.listSample_tame hitems,
    Graph.listSample_conforms hitems rfl _ _, listSample_clean _, ?_⟩
  refine listSample_checked hitems rfl ?_
  simp only [listSchema, checkSchema, checkKey, Entries.find?, if_true, Option.getD_some,
    Graph.observe_type]
  rfl

end SchemaFlow
