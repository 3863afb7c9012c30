import SchemaFlow.Proofs.Chain.Fitting
import SchemaFlow.Proofs.Observation.Culprits

/-!
# Declared placeholders

A schema can stand for data that is not there yet. Checked against it as declared, or as the data that
it stands for, a chain gives the same answer: a transform check finds what it finds with every leaf
fitted, and a fit check finds what it finds of its input, whatever it finds of the parameters.

Whether a fit check returns on a schema does not depend on the schema, since types can always be
observed: it depends on the parameters, and on those that can be read it does return.

* `passLinks_retyped`: a pass that returns on some data returns on all data that can be observed.
* `Chain.static_agrees`: the checks of declared schemas and those of payloads agree.
-/

namespace SchemaFlow

variable {g : Graph}

/-! ## 1. Other data -/

/-- The parameters of a stage are read whatever the data is. -/
theorem Contract.checkFit_retyped {c : Contract} {stage : Option String}
    {data data' : Entries Value} {own : Value} {vs bare : List Violation}
    (h : c.checkFit g stage data own = .ok vs)
    (hbare : c.checkStatic g stage data' .fit = .ok bare) :
    ∃ ws, c.checkFit g stage data' own = .ok ws := by
  have hinput : checkSchema g stage (.slot .fitRequires) data' c.fitRequires = .ok bare := hbare
  unfold checkFit at h ⊢
  obtain ⟨_, -, h₁⟩ := Step.bind_eq_ok.1 h
  obtain ⟨given, hgiven, h₂⟩ := Step.bind_eq_ok.1 h₁
  obtain ⟨declared, hdeclared, h₃⟩ := Step.bind_eq_ok.1 h₂
  obtain ⟨all, hall, h₄⟩ := Step.bind_eq_ok.1 h₃
  obtain ⟨others, hothers, -⟩ := Step.bind_eq_ok.1 h₄
  dsimp only
  rw [Step.bind_of_ok hinput, Step.bind_of_ok hgiven, Step.bind_of_ok hdeclared,
    Step.bind_of_ok hall, Step.bind_of_ok hothers]
  exact ⟨_, rfl⟩

/-- A check of a stage that returns on some data returns on data that can be observed. -/
theorem stageViolations_retyped {pass : Pass} {demanded : List (String × TypeSpec)} {c : Contract}
    (hsub : ∀ e ∈ (c.demand pass.phase).2, e ∈ demanded) {stage name : String}
    {parameters : Option Source} {data data' : Entries Value} (hdata : g.Answers demanded data')
    {vs : List Violation} (h : stageViolations g pass c stage name parameters data = .ok vs) :
    ∃ ws, stageViolations g pass c stage name parameters data' = .ok ws := by
  obtain ⟨bare, hbare⟩ := pass.check_returns hdata stage hsub
  unfold Pass.check at hbare
  unfold stageViolations at h ⊢
  cases hphase : pass.phase with
  | transform =>
      rw [hphase] at hbare
      exact ⟨bare, hbare⟩
  | fit =>
      rw [hphase] at h hbare
      cases parameters with
      | none => exact ⟨bare, hbare⟩
      | some given =>
          obtain ⟨own, hown, hcheck⟩ := Step.bind_eq_ok.1 h
          dsimp only
          rw [Step.bind_of_ok hown]
          exact Contract.checkFit_retyped hcheck hbare

mutual

theorem passLink_retyped {pass : Pass} {demanded : List (String × TypeSpec)} : ∀ {l : Link}
    {lead name : String} {parameters : Option Source} {data data' : Entries Value} {r : Outcome},
    l.WellFormed →
    (∀ p ∈ l.leaves (lead ++ name), ∀ e ∈ (p.2.demand pass.phase).2, e ∈ demanded) →
    g.Answers demanded data' → passLink g pass lead parameters name l data = .ok r →
      ∃ r', passLink g pass lead parameters name l data' = .ok r' ∧ g.Answers demanded r'.data
  | .stage c, lead, name, parameters, data, data', r, hl, hsub, hdata, h => by
      rw [passLink] at h ⊢
      obtain ⟨found, hfound, -⟩ := Step.bind_eq_ok.1 h
      have hc : c.WellFormed := by
        cases hl with
        | stage hc => exact hc
      rw [Link.leaves] at hsub
      obtain ⟨ws, hws⟩ := stageViolations_retyped (hsub _ (List.mem_singleton_self _)) hdata hfound
      obtain ⟨next, hnext, -⟩ := effectOn_eq hc.produced.distinct hdata.readable
      rw [Step.bind_of_ok hws, Step.bind_of_ok hnext]
      exact ⟨_, rfl, hdata.effectOn hc.produced.distinct hnext⟩
  | .chain links, lead, name, parameters, data, data', r, hl, hsub, hdata, h => by
      rw [passLink] at h ⊢
      obtain ⟨⟨given, found⟩, hgiven, h⟩ := Step.bind_eq_ok.1 h
      obtain ⟨sub, hsubpass, -⟩ := Step.bind_eq_ok.1 h
      rw [Link.leaves] at hsub
      have hlinks : ∀ e ∈ links, e.2.WellFormed := by
        cases hl with
        | chain _ _ _ hlinks => exact hlinks
      obtain ⟨sub', hsub', hanswers⟩ := passLinks_retyped hlinks hsub hdata hsubpass
      rw [Step.bind_of_ok hgiven]
      dsimp only
      rw [Step.bind_of_ok hsub']
      exact ⟨_, rfl, hanswers⟩

/-- **A pass that returns on some data returns on all data that can be observed**: what else may
    fail is the reading of its parameters. -/
theorem passLinks_retyped {pass : Pass} {demanded : List (String × TypeSpec)} :
    ∀ {links : List (String × Link)} {lead : String} {parameters : Option Source}
    {data data' : Entries Value} {r : Outcome}, (∀ e ∈ links, e.2.WellFormed) →
    (∀ p ∈ linkLeaves lead links, ∀ e ∈ (p.2.demand pass.phase).2, e ∈ demanded) →
    g.Answers demanded data' → passLinks g pass lead parameters links data = .ok r →
      ∃ r', passLinks g pass lead parameters links data' = .ok r' ∧ g.Answers demanded r'.data
  | [], lead, parameters, data, data', r, _, _, hdata, _ => by
      rw [passLinks]
      exact ⟨_, rfl, hdata⟩
  | (name, l) :: rest, lead, parameters, data, data', r, hlinks, hsub, hdata, h => by
      obtain ⟨hl, hrest⟩ := List.forall_mem_cons.1 hlinks
      rw [linkLeaves, List.forall_mem_append] at hsub
      rw [passLinks] at h ⊢
      obtain ⟨first, hfirst, h⟩ := Step.bind_eq_ok.1 h
      obtain ⟨later, hlater, -⟩ := Step.bind_eq_ok.1 h
      obtain ⟨first', hfirst', hnext⟩ := passLink_retyped hl hsub.1 hdata hfirst
      obtain ⟨later', hlater', hlast⟩ := passLinks_retyped hrest hsub.2 hnext hlater
      rw [Step.bind_of_ok hfirst', Step.bind_of_ok hlater']
      exact ⟨_, rfl, hlast⟩

end

/-- What is found on a fit walk stands under the heading of the input. -/
theorem Walk.heading_fit {ls : List (String × Contract)} {data last : Entries Value}
    {founds : List (List Violation)} (h : Walk g { phase := .fit } ls data founds last) :
    ∀ v ∈ founds.flatten, v.finding.heading = .slot .fitRequires := by
  induction h with
  | nil _ => exact fun v hv => absurd hv List.not_mem_nil
  | cons hcheck _ _ ih =>
      intro v hv
      rcases List.mem_append.1 (List.flatten_cons ▸ hv) with hv | hv
      · obtain ⟨input, hinput, rfl⟩ := Pass.check_eq_ok.1 hcheck
        rw [Pass.unfitted, List.append_nil] at hv
        exact (mem_checkSchema hinput v hv).2.1
      · exact ih v hv

namespace Chain

variable {c : Chain}

/-! ## 2. The checks agree -/

/-- A fit check that returns on some data returns on all data that can be observed. -/
theorem checkFit_retyped (hc : c.WellFormed) {parameters : Option Source}
    {data data' : Entries Value} {vs : List Violation}
    (hdata : g.Answers (demandsOf .fit c.leaves) data')
    (h : c.checkFit g data parameters = .ok vs) : ∃ ws, c.checkFit g data' parameters = .ok ws := by
  obtain ⟨-, -, -, hlinks⟩ := Chain.wellFormed_iff.1 hc
  obtain ⟨r, hr, -⟩ := checkFit_eq_ok.1 h
  obtain ⟨sub, hsub, -⟩ := pass_eq_ok.1 hr
  have hdemands : ∀ p ∈ linkLeaves "" c.links, ∀ e ∈ (p.2.demand .fit).2,
      e ∈ demandsOf .fit c.leaves := fun p hp e he => mem_demandsOf hp he
  obtain ⟨sub', hsub', -⟩ := passLinks_retyped hlinks hdemands hdata hsub
  exact ⟨_, checkFit_eq_ok.2 ⟨_, pass_eq_ok.2 ⟨sub', hsub', rfl⟩, rfl⟩⟩

/-- What a fit check finds of the data is what is found of it without parameters. -/
theorem checkStatic_of_checkFit {parameters : Option Source} {data : Entries Value}
    {vs : List Violation} (h : c.checkFit g data parameters = .ok vs) :
    c.checkStatic g data .fit =
      .ok (vs.filter fun v => v.finding.heading = .slot .fitRequires) := by
  obtain ⟨founds, last, hwalk, hflat⟩ := walk_of_checkFit h
  have hstatic : c.checkStatic g data .fit = .ok founds.flatten := violations_of_walk hwalk
  rw [hstatic, hflat]
  refine congrArg Except.ok (List.filter_congr fun v hv => ?_)
  -- what is found of the data in a fit pass stands under the heading of the input
  rw [Bool.eq_iff_iff, decide_eq_true_eq]
  constructor
  · intro hdata
    have hmem : v ∈ founds.flatten := by
      rw [hflat]
      exact List.mem_filter.2 ⟨hv, hdata⟩
    exact hwalk.heading_fit v hmem
  · intro hheading
    rw [Violation.isOfData, hheading]
    rfl

/-- **The checks of declared schemas and those of payloads agree.** A transform check of a schema finds
    what it finds with all leaves fitted. A fit check finds of its input what is found of the schema
    as declared. It returns on every schema if it returns on one, and so it does with parameters that
    can be read. -/
theorem static_agrees (hc : c.WellFormed) (s : Schema) :
    (∀ fitted : List String, (∀ l ∈ c.leaves, l.1 ∈ fitted) →
      ∃ vs, c.checkStatic g (typed s) .transform = .ok vs ∧
        c.checkTransform g (typed s) fitted = .ok vs) ∧
    (∀ (parameters : Option Source) (vs : List Violation),
      c.checkFit g (typed s) parameters = .ok vs →
        c.checkStatic g (typed s) .fit =
          .ok (vs.filter fun v => v.finding.heading = .slot .fitRequires)) ∧
    (∀ (parameters : Option Source) (data : Entries Value) (vs : List Violation),
      c.checkFit g data parameters = .ok vs →
        ∃ ws, c.checkFit g (typed s) parameters = .ok ws) ∧
    ∀ v : Value, g.PerStage v → linksRead g (g.table v) c.links →
      ∃ vs, c.checkFit g (typed s) (parametersOf v) = .ok vs := by
  have hanswers : ∀ phase, g.Answers (demandsOf phase c.leaves) (typed s) :=
    fun phase => Graph.Answers.typed g _ s
  refine ⟨fun fitted hall => ?_, fun parameters vs => checkStatic_of_checkFit,
    fun parameters data vs => checkFit_retyped hc (hanswers .fit), fun v hv hread => ?_⟩
  · obtain ⟨founds, last, hwalk⟩ : ∃ founds last,
        Walk g { phase := .transform } c.leaves (typed s) founds last :=
      exists_walk_of_answers (fun _ hl => hc.of_mem_leaves hl) (hanswers .transform)
    have hwalk' : Walk g { phase := .transform, fitted := some fitted } c.leaves (typed s) founds
        last := hwalk.of_counts rfl fun l hl => List.contains_iff_mem.2 (hall l hl)
    exact ⟨founds.flatten, violations_of_walk hwalk, violations_of_walk hwalk'⟩
  · obtain ⟨r, hr, -⟩ := pass_takes hc (hanswers .fit) hv hread
    exact ⟨r.violations, checkFit_eq_ok.2 ⟨r, hr, rfl⟩⟩

/-- The sample of parameters in a chain, with a rate that does not conform: what is found of the
    schema is what is found of it as declared. -/
theorem static_agrees_seeded : seededSample.WellFormed ∧
    Graph.seededSample.PerStage (.node 0) ∧
    linksRead Graph.seededSample (Graph.seededSample.table (.node 0)) seededSample.links ∧
    ∃ vs ws, seededSample.checkFit Graph.seededSample (typed [("rows", .scalar .float)])
        (parametersOf (.node 0)) = .ok vs ∧
      seededSample.checkStatic Graph.seededSample (typed [("rows", .scalar .float)]) .fit =
        .ok (vs.filter fun v => v.finding.heading = .slot .fitRequires) ∧
      seededSample.checkStatic Graph.seededSample (typed [("rows", .scalar .float)]) .transform =
        .ok ws ∧
      seededSample.checkTransform Graph.seededSample (typed [("rows", .scalar .float)])
        ["prep/split", "prep/toString", "model"] = .ok ws := by
  have hc : seededSample.WellFormed := by decide
  have hparameters : Graph.seededSample.PerStage (.node 0) := by
    refine ⟨Or.inr ⟨rfl, by simp⟩, fun e he => Or.inr ?_⟩
    have hentries : e ∈ [("prep", Value.node 1), ("model", .node 3)] := he
    simp only [List.mem_cons, List.not_mem_nil, or_false] at hentries
    rcases hentries with rfl | rfl <;> rfl
  obtain ⟨htransform, hfit, -, hreturns⟩ := static_agrees (g := Graph.seededSample) hc
    [("rows", .scalar .float)]
  obtain ⟨vs, hvs⟩ := hreturns (.node 0) hparameters seededSample_reads
  obtain ⟨ws, hstatic, hws⟩ := htransform ["prep/split", "prep/toString", "model"] (by decide)
  exact ⟨hc, hparameters, seededSample_reads, vs, ws, hvs, hfit _ _ hvs, hstatic, hws⟩

/-! ## 3. Parameters that cannot be handed on -/

/-- A stage in a nested chain. -/
def sealedSample : Chain :=
  ⟨[("prep", .chain [("split", .stage { fitRequires := [("rows", .scalar .float)] })])]⟩

end Chain

/-- Parameters for the nested chain: under the name of the ancestor an operation, which keeps its
    parts, and a table under the name of one of them. -/
def Graph.sealedSample : Graph :=
  ⟨#[.object .plain [("prep", .node 1)],
    .object .plain [("__proto__", .drop), ("op", .emptyTable)]]⟩

theorem Graph.sealedSample_harmless {id : Nat} (hid : id < 2) :
    Graph.sealedSample.Harmless (.node id) := by
  have hmaps : ∀ id entries, Graph.sealedSample.node? id ≠ some (.map entries) := by
    intro id entries
    rcases id with _ | _ | n <;> simp [Graph.sealedSample, Graph.node?]
  have hclean : ∀ v, v = .drop ∨ v = .emptyTable ∨ v = .node 0 ∨ v = .node 1 →
      ¬ Graph.sealedSample.Culprit v := by
    intro v hv
    refine Graph.not_culprit (fun _ => ?_) ?_ (fun entries hform => ?_) ?_
    · rcases hv with rfl | rfl | rfl | rfl <;> decide
    · rintro dtype shape ⟨id, lineage, entries, rfl, hnode, hdescribed⟩
      rcases hv with h | h | h | h <;> cases h <;> cases hnode <;> cases hdescribed
    · rcases hv with rfl | rfl | rfl | rfl <;> cases hform <;>
        exact ⟨by first | exact Or.inl (by decide) | exact Or.inr (by decide),
          fun w hw => by simp [Graph.listed] at hw⟩
    · rcases hv with rfl | rfl | rfl | rfl <;> exact Value.noConfusion
  have hdrop : Graph.sealedSample.Harmless .drop :=
    .of_parts (hclean _ (by simp)) hmaps (List.forall_mem_singleton.2 (harmless_leaf rfl rfl))
  have htable : Graph.sealedSample.Harmless .emptyTable :=
    .of_parts (hclean _ (by simp)) hmaps fun _ h => absurd h List.not_mem_nil
  have hinner : Graph.sealedSample.Harmless (.node 1) :=
    .of_parts (hclean _ (by simp)) hmaps
      (List.forall_mem_cons.2 ⟨hdrop, List.forall_mem_singleton.2 htable⟩)
  have houter : Graph.sealedSample.Harmless (.node 0) :=
    .of_parts (hclean _ (by simp)) hmaps (List.forall_mem_singleton.2 hinner)
  rcases Nat.lt_succ_iff_lt_or_eq.1 hid with hfirst | rfl
  · obtain rfl : id = 0 := Nat.lt_one_iff.1 hfirst
    exact houter
  · exact hinner

/-- Parameters of which every value can be observed may not be read all the same: on the way to a
    nested chain one of them is in the place of another. -/
theorem Chain.not_static_agrees : ¬ ∀ (g : Graph) (c : Chain) (s : Schema) (v : Value),
    c.WellFormed → g.isPlain v = true →
    (∀ id < g.size, ∀ hint : Option TypeSpec, (∀ t, hint = some t → t.Ancestorless) →
      ∃ t, g.observe hint (.node id) = .ok t) →
    ∃ vs, c.checkFit g (typed s) (parametersOf v) = .ok vs ∧
      c.checkStatic g (typed s) .fit =
        .ok (vs.filter fun v => v.finding.heading = .slot .fitRequires) := by
  intro h
  have hnone : (Chain.sealedSample.checkFit Graph.sealedSample (typed [])
      (parametersOf (.node 0))).toOption.isNone = true := by decide +kernel
  obtain ⟨vs, hvs, -⟩ := h Graph.sealedSample Chain.sealedSample [] (.node 0) (by decide) rfl
    fun id hid hint hhint => (Graph.sealedSample_harmless hid).observe hhint
  rw [hvs] at hnone
  cases hnone

end SchemaFlow
