import SchemaFlow.Proofs.Chain.Parameters
import SchemaFlow.Proofs.Chain.Verdicts
import SchemaFlow.Proofs.Observation.Culprits

/-!
# Checks return their findings

A check returns what it finds, whatever that is, as long as the values that it looks at are harmless
(`Graph.checks_return`). This is not so of all values: a field under the empty name, or an array that
describes its elements by a name that all objects know, makes the check itself fail
(`Graph.not_checks_return`).

The fit of a chain goes down its parameters along its links. `linksLegible` says what they have to be
on that way: tables that list each text once, with harmless values where a stage takes them.
-/

namespace SchemaFlow

/-! ## 1. Demands and data -/

/-- No type that a contract demands of what it is given names an ancestor. -/
structure Contract.Ancestorless (c : Contract) : Prop where
  fitRequires : ∀ e ∈ c.fitRequires, e.2.Ancestorless
  transformRequires : ∀ e ∈ c.transformRequires, e.2.Ancestorless
  fitParameters : ∀ e ∈ c.fitParameters, e.2.Ancestorless

theorem Contract.Ancestorless.demand {c : Contract} (h : c.Ancestorless) (phase : Phase) :
    ∀ e ∈ (c.demand phase).2, e.2.Ancestorless := by
  cases phase with
  | fit => exact h.fitRequires
  | transform => exact h.transformRequires

/-- A table of harmless values. -/
def Graph.HarmlessTable (g : Graph) (data : Entries Value) : Prop := ∀ e ∈ data, g.Harmless e.2

namespace Graph.HarmlessTable

variable {g : Graph} {data : Entries Value}

/-- A harmless table answers all demands that name no ancestor. -/
theorem answers (h : g.HarmlessTable data) {demanded : List (String × TypeSpec)}
    (hdemanded : ∀ e ∈ demanded, e.2.Ancestorless) : g.Answers demanded data where
  readable key v hv := by
    refine (h _ (Entries.mem_of_find? hv)).observe fun t ht => ?_
    obtain rfl := Option.some.inj ht
    exact .record fun e he => absurd he List.not_mem_nil
  observed key t v hmem hv := by
    refine (h _ (Entries.mem_of_find? hv)).observe fun u hu => ?_
    obtain rfl := Option.some.inj hu
    exact hdemanded _ hmem

theorem answers_leaves (h : g.HarmlessTable data) {c : Chain}
    (hc : ∀ l ∈ c.leaves, l.2.Ancestorless) (phase : Phase) :
    g.Answers (demandsOf phase c.leaves) data := by
  refine h.answers fun e he => ?_
  obtain ⟨l, hl, he⟩ := List.mem_flatMap.1 he
  exact (hc l hl).demand phase e he

theorem observes (h : g.HarmlessTable data) {c : Contract} (hc : c.Ancestorless) :
    c.Observes g data := by
  intro e he _
  refine (h e he).observe fun t ht => ?_
  exact hc.fitParameters _ (Entries.mem_of_find? ht)

end Graph.HarmlessTable

/-! ## 2. Parameters -/

mutual

/-- What a link is given is legible: tables that list each text once, those of a stage harmless. -/
def Link.Legible (g : Graph) (v : Value) : Link → Prop
  | .stage _ => g.Tabled v ∧ g.HarmlessTable (g.table v)
  | .chain links =>
    g.Tabled v ∧ (∀ e ∈ g.table v, e.1 ≠ ancestorName) ∧ linksLegible g (g.handed (g.table v)) links

/-- What a table has for each of several links is legible. -/
def linksLegible (g : Graph) (entries : Entries Value) : List (String × Link) → Prop
  | [] => True
  | (name, l) :: rest =>
    name ≠ ancestorName ∧ Link.Legible g (valueAt entries name) l ∧ linksLegible g entries rest

end

mutual

theorem Link.Legible.reads {g : Graph} : ∀ {l : Link} {v : Value} {name : String},
    (∀ p ∈ l.leaves name, p.2.Ancestorless) → l.Legible g v → l.Reads g v
  | .stage c, v, name, hl, h => by
      rw [Link.Legible] at h
      rw [Link.leaves] at hl
      rw [Link.Reads]
      exact ⟨h.1, h.2.observes (hl _ List.mem_cons_self)⟩
  | .chain links, v, name, hl, h => by
      rw [Link.Legible] at h
      rw [Link.leaves] at hl
      rw [Link.Reads]
      exact ⟨h.1, h.2.1, linksRead_of_legible hl h.2.2⟩

/-- **Legible parameters can be read.** -/
theorem linksRead_of_legible {g : Graph} : ∀ {links : List (String × Link)} {entries : Entries Value}
    {lead : String}, (∀ p ∈ linkLeaves lead links, p.2.Ancestorless) →
      linksLegible g entries links → linksRead g entries links
  | [], _, _, _, _ => by
      rw [linksRead]
      trivial
  | (name, l) :: rest, entries, lead, hl, h => by
      rw [linksLegible] at h
      rw [linkLeaves, List.forall_mem_append] at hl
      obtain ⟨hname, hfirst, hlater⟩ := h
      rw [linksRead]
      exact ⟨hname, hfirst.reads hl.1, linksRead_of_legible hl.2 hlater⟩

end

/-! ## 3. Contracts -/

namespace Contract

variable {g : Graph} {c : Contract} {data : Entries Value}

theorem checkTransform_returns (hc : c.Ancestorless) (hdata : g.HarmlessTable data)
    (stage : Option String) (fitted : Bool) : ∃ vs, c.checkTransform g stage data fitted = .ok vs := by
  have hanswers : g.Answers c.transformRequires data := hdata.answers hc.transformRequires
  obtain ⟨input, hinput⟩ :=
    checkSchema_returns hanswers stage (.slot .transformRequires) fun _ he => he
  unfold checkTransform
  rw [Step.bind_of_ok hinput]
  exact ⟨_, rfl⟩

theorem checkFit_returns (hwf : c.WellFormed) (hc : c.Ancestorless) (hdata : g.HarmlessTable data)
    {p : Value} (hp : g.Tabled p) (htable : g.HarmlessTable (g.table p)) (stage : Option String) :
    ∃ vs, c.checkFit g stage data p = .ok vs := by
  have hanswers : g.Answers c.fitRequires data := hdata.answers hc.fitRequires
  have hinput : ∀ e ∈ c.fitRequires, ∀ v, data.find? e.1 = some v →
      ∃ t, g.observe (some e.2) v = .ok t := fun e he v hv => hanswers.observed e.1 e.2 v he hv
  obtain ⟨vs, hvs, _⟩ :=
    quiet_checkFit hwf hinput hp.payload hp.parameterEntries (htable.observes hc) stage
  exact ⟨vs, hvs⟩

end Contract

/-! ## 4. Chains -/

namespace Chain

variable {g : Graph} {c : Chain} {data : Entries Value}

theorem checkTransform_returns (hwf : c.WellFormed) (hc : ∀ l ∈ c.leaves, l.2.Ancestorless)
    (hdata : g.HarmlessTable data) (fitted : List String) :
    ∃ vs, c.checkTransform g data fitted = .ok vs :=
  exists_checkTransform (fun _ hl => hwf.of_mem_leaves hl) (hdata.answers_leaves hc .transform)
    fitted

theorem fitPass_returns (hwf : c.WellFormed) (hc : ∀ l ∈ c.leaves, l.2.Ancestorless)
    (hdata : g.HarmlessTable data) {p : Value} (hp : g.PerStage p)
    (hlegible : linksLegible g (g.table p) c.links) :
    ∃ r, c.pass g { phase := .fit } (parametersOf p) data = .ok r := by
  obtain ⟨r, hr, _⟩ :=
    pass_takes hwf (hdata.answers_leaves hc .fit) hp (linksRead_of_legible hc hlegible)
  exact ⟨r, hr⟩

theorem checkFit_returns (hwf : c.WellFormed) (hc : ∀ l ∈ c.leaves, l.2.Ancestorless)
    (hdata : g.HarmlessTable data) {p : Value} (hp : g.PerStage p)
    (hlegible : linksLegible g (g.table p) c.links) :
    ∃ vs, c.checkFit g data (parametersOf p) = .ok vs := by
  obtain ⟨r, hr⟩ := fitPass_returns hwf hc hdata hp hlegible
  exact ⟨r.violations, checkFit_eq_ok.2 ⟨r, hr, rfl⟩⟩

theorem check_returns (hwf : c.WellFormed) (hc : ∀ l ∈ c.leaves, l.2.Ancestorless)
    (hdata : g.HarmlessTable data) {p : Value} (hp : g.PerStage p)
    (hlegible : linksLegible g (g.table p) c.links) :
    ∃ report, c.check g data (parametersOf p) = .ok report := by
  obtain ⟨fit, hfit⟩ := fitPass_returns hwf hc hdata hp hlegible
  obtain ⟨vs, hvs⟩ := checkTransform_returns hwf hc hdata fit.fitted
  exact exists_check hfit hvs

end Chain

/-! ## 5. All checks -/

/-- Whatever can carry data lists it, but for the founder of addresses. -/
theorem Graph.payload_returns {g : Graph} {v : Value} (hv : g.isPayload v = true)
    (hlisted : v ≠ .founder (.foreign "URL")) : ∃ data, g.payload v = .ok data := by
  unfold Graph.payload
  cases hmap : g.mapEntries? v with
  | some entries => exact ⟨_, rfl⟩
  | none =>
      show ∃ data, g.partsOf v = .ok data
      unfold Graph.partsOf
      split
      · cases hv
      · cases hv
      · cases hv
      · exact absurd rfl hlisted
      · exact ⟨_, rfl⟩

/-- **Checks return their findings.** On data that can be a payload and holds harmless values only,
    every check of a contract and of a chain returns, with parameters that are legible, under every
    set of fitted stages. -/
theorem Graph.checks_return {g : Graph} {v : Value} (hv : g.isPayload v = true)
    (hlisted : v ≠ .founder (.foreign "URL"))
    (hdata : ∀ data, g.payload v = .ok data → g.HarmlessTable data) :
    ∃ data, g.payload v = .ok data ∧
      (∀ c : Contract, c.WellFormed → c.Ancestorless → ∀ stage : Option String,
        (∀ fitted, ∃ vs, c.checkTransform g stage data fitted = .ok vs) ∧
        ∀ p, g.Tabled p → g.HarmlessTable (g.table p) → ∃ vs, c.checkFit g stage data p = .ok vs) ∧
      ∀ c : Chain, c.WellFormed → (∀ l ∈ c.leaves, l.2.Ancestorless) →
        (∀ fitted, ∃ vs, c.checkTransform g data fitted = .ok vs) ∧
        ∀ p, g.PerStage p → linksLegible g (g.table p) c.links →
          (∃ vs, c.checkFit g data (Chain.parametersOf p) = .ok vs) ∧
          ∃ report, c.check g data (Chain.parametersOf p) = .ok report := by
  obtain ⟨data, hpayload⟩ := g.payload_returns hv hlisted
  have hharmless := hdata data hpayload
  refine ⟨data, hpayload, fun c hwf hc stage => ⟨fun fitted => ?_, fun p hp htable => ?_⟩,
    fun c hwf hc => ⟨fun fitted => ?_, fun p hp hlegible => ⟨?_, ?_⟩⟩⟩
  · exact Contract.checkTransform_returns hc hharmless stage fitted
  · exact Contract.checkFit_returns hwf hc hharmless hp htable stage
  · exact Chain.checkTransform_returns hwf hc hharmless fitted
  · exact Chain.checkFit_returns hwf hc hharmless hp hlegible
  · exact Chain.check_returns hwf hc hharmless hp hlegible

/-! ## 6. A row that holds itself -/

theorem Graph.loopSample_harmless : loopSample.Harmless (.node 0) where
  clean := by
    have hwithin : ∀ w, loopSample.Within (.node 0) w → w = .node 0 ∨ w = .text "a" := by
      intro w hw
      induction hw with
      | refl => exact Or.inl rfl
      | tail _ hpart ih =>
          rcases ih with rfl | rfl
          · have hmem : _ ∈ [Value.text "a", .node 0] := hpart
            simp only [List.mem_cons, List.not_mem_nil, or_false] at hmem
            exact hmem.symm
          · cases hpart
    intro w hw
    rcases hwithin w hw with rfl | rfl
    · refine Graph.not_culprit (fun _ => by decide) ?_ (fun entries hform => ?_) (by simp)
      · rintro dtype shape ⟨id, lineage, entries, hid, hnode, hdescribed⟩
        cases hid
        cases hnode
        cases hdescribed
      · cases hform
        exact ⟨Or.inl (by decide), by simp⟩
    · exact (Graph.harmless_leaf rfl rfl).not_culprit
  keys id entries hreach hnode := by
    have hid : id < 1 := lt_size_of_node? hnode
    obtain rfl : id = 0 := by omega
    cases hnode

/-- A stage that reads the row under the name under which it has itself. -/
def Contract.selfReading : Contract :=
  { fitRequires := [("self", loopRecord)], transformRequires := [("self", loopRecord)] }

theorem Contract.selfReading_ancestorless : selfReading.Ancestorless := by
  have hrecord : loopRecord.Ancestorless := by
    refine .record ?_
    simp only [List.forall_mem_cons]
    exact ⟨.scalar _, .handle _, fun _ h => absurd h List.not_mem_nil⟩
  have hdemand : ∀ e ∈ [("self", loopRecord)], e.2.Ancestorless := by
    simpa using hrecord
  exact ⟨hdemand, hdemand, fun _ h => absurd h List.not_mem_nil⟩

/-- The row is a payload of its own fields, and the checks of the stage on it return. -/
theorem Graph.checks_return_loop :
    loopSample.isPayload (.node 0) = true ∧
      ∃ data, loopSample.payload (.node 0) = .ok data ∧ loopSample.HarmlessTable data ∧
        (∃ vs, Contract.selfReading.checkFit loopSample none data .absent = .ok vs) ∧
        ∃ report, Chain.check loopSample ⟨[("read", .stage .selfReading)]⟩ data
          (Chain.parametersOf .absent) = .ok report := by
  have hharmless : ∀ data, loopSample.payload (.node 0) = .ok data →
      loopSample.HarmlessTable data := by
    intro data hdata
    cases hdata
    refine List.forall_mem_cons.2 ⟨Graph.harmless_leaf rfl rfl, ?_⟩
    exact List.forall_mem_singleton.2 loopSample_harmless
  obtain ⟨data, hpayload, hcontract, hchain⟩ := Graph.checks_return rfl (by simp) hharmless
  have hnothing : loopSample.HarmlessTable (loopSample.table .absent) :=
    fun e he => absurd he List.not_mem_nil
  refine ⟨rfl, data, hpayload, hharmless data hpayload, ?_, ?_⟩
  · exact (hcontract .selfReading (by decide) Contract.selfReading_ancestorless none).2 .absent
      loopSample.tabled_absent hnothing
  · have hparameters : loopSample.PerStage .absent :=
      ⟨Or.inl rfl, fun e he => absurd he List.not_mem_nil⟩
    have hlegible : linksLegible loopSample (loopSample.table .absent)
        [("read", .stage .selfReading)] :=
      ⟨by decide, ⟨loopSample.tabled_absent, hnothing⟩, trivial⟩
    refine ((hchain ⟨[("read", .stage .selfReading)]⟩ (by decide) ?_).2 .absent hparameters
      hlegible).2
    intro l hl
    obtain rfl := List.mem_singleton.1 hl
    exact Contract.selfReading_ancestorless

/-! ## 7. Values that cannot be observed -/

/-- What the first observation of a check fails with is what the check fails with. -/
theorem Contract.checkTransform_error {g : Graph} {c : Contract} {data : Entries Value} {key : String}
    {t : TypeSpec} {rest : Schema} {v : Value} {e : Fault}
    (hc : c.transformRequires = (key, t) :: rest) (hv : data.find? key = some v)
    (hpresent : v.isAbsent = false) (he : g.observe (some t) v = .error e) (stage : Option String)
    (fitted : Bool) : c.checkTransform g stage data fitted = .error e := by
  have hkey : checkKey g (.slot .transformRequires) data key t = .error e := by
    unfold checkKey
    rw [hv, Option.getD_some]
    split
    · cases hpresent
    · rw [he]
      rfl
  have hinput : checkSchema g stage (.slot .transformRequires) data c.transformRequires =
      .error e := by
    rw [hc, checkSchema, hkey]
    rfl
  unfold checkTransform
  rw [hinput]
  rfl

/-- A row with a field under the empty name, and one that describes its elements by the name of a
    part that all objects have. -/
def Graph.culpritSample : Graph :=
  ⟨#[.object .plain [("row", .node 1), ("array", .node 2)],
    .object .plain [("a", .number 1), ("", .number 2)],
    .object .plain [("dtype", .text "constructor"), ("shape", .node 3)], .list [.number 2]]⟩

theorem Graph.culpritSample_row :
    culpritSample.observe (some (.record [("a", .scalar .float)] none)) (.node 1) =
      refuse "record" .emptyKey := by
  have hform : culpritSample.form (.node 1) = .table [("a", .number 1), ("", .number 2)] := rfl
  have hnumber : ∀ hint x, culpritSample.observeAt [] [1] hint (.number x) = .ok (.scalar .float) :=
    fun hint _ => observeAt_leaf culpritSample [] [1] hint rfl
  have hfields : observeFields (fun hint w => culpritSample.observeAt [] [1] hint w)
      (Hint.part "fields" (.type (.record [("a", .scalar .float)] none))) {}
      [("a", .number 1), ("", .number 2)] =
      .ok { entries := [("a", .scalar .float), ("", .scalar .float)] } := by
    rw [observeFields_cons rfl (hnumber _ _) rfl, observeFields_cons rfl (hnumber _ _) rfl]
    rfl
  refine (observeAt_form (fun _ h => absurd h List.not_mem_nil)
    (fun _ h => absurd h List.not_mem_nil) _).trans ?_
  rw [hform]
  exact Step.bind_of_ok hfields _

theorem Graph.culpritSample_array (hint : Option TypeSpec) :
    culpritSample.observe hint (.node 2) = refuseHere (.unknownKind "undefined" "array element") := by
  unfold observe
  rw [observeAt_node _ _ List.not_mem_nil fun _ _ => List.not_mem_nil]
  show describedType "Object" "constructor" [some 2] = _
  have hlower : "constructor".toLower = "constructor" := by decide +kernel
  have hkind : (ScalarKind.ofName? "constructor").or (Entries.find? elementKinds "constructor") =
      none := by decide
  unfold describedType
  rw [hlower, hkind]
  rfl

/-- **Not all data can be checked.** A field under the empty name makes the check fail that expects a
    record, and a self-description with the name `constructor` every check that looks at it. -/
theorem Graph.not_checks_return :
    culpritSample.payload (.node 0) = .ok [("row", .node 1), ("array", .node 2)] ∧
      Contract.checkTransform culpritSample
        { transformRequires := [("row", .record [("a", .scalar .float)] none)] } none
        [("row", .node 1), ("array", .node 2)] true = refuse "record" .emptyKey ∧
      Contract.checkTransform culpritSample
        { transformRequires := [("array", .handle "Object")] } none
        [("row", .node 1), ("array", .node 2)] true =
          refuseHere (.unknownKind "undefined" "array element") := by
  refine ⟨rfl, ?_, ?_⟩
  · exact Contract.checkTransform_error rfl rfl rfl culpritSample_row none true
  · exact Contract.checkTransform_error rfl rfl rfl (culpritSample_array _) none true

end SchemaFlow
