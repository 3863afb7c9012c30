import SchemaFlow.Proofs.Chain.Walk

/-!
# The verdicts on the leaves of a chain

A check of a chain, however deep, is the checks of its leaves in a row, each against the data as all
leaves before it leave it (`Leafwise.concat`). No violation is lost, doubled or put under another
name: about each name that a leaf demands the violations say what there is to say
(`Leafwise.verdicts`), and each leaf that keeps state and is not fitted is named once
(`Leafwise.unfitted`).
-/

namespace SchemaFlow

/-! ## 1. Passes and walks -/

/-- **Without parameters a pass through a chain is a pass through its leaves.** -/
theorem Chain.pass_leaves (g : Graph) (c : Chain) (p : Pass) (data : Entries Value) :
    c.pass g p none data = passLinks g p "" none (stagesOf c.leaves) data := by
  unfold Chain.pass Chain.leaves unknownStages
  rw [passLinks_leaves g p "" c.links data]
  cases passLinks g p "" none (stagesOf (linkLeaves "" c.links)) data <;> rfl

/-- What a walk along the leaves finds is what a pass through the chain returns. -/
theorem Chain.violations_of_walk {g : Graph} {c : Chain} {p : Pass} {data last : Entries Value}
    {founds : List (List Violation)} (h : Walk g p c.leaves data founds last) :
    (do .ok (← c.pass g p none data).violations : Except Fault (List Violation)) =
      .ok founds.flatten := by
  obtain ⟨r, hr, hviolations, _⟩ := h.passLinks
  rw [c.pass_leaves, Step.bind_of_ok hr, hviolations]

/-- A pass that returns has walked along the leaves. -/
theorem Chain.walk_of_pass {g : Graph} {c : Chain} {p : Pass} {data : Entries Value}
    {vs : List Violation}
    (h : (do .ok (← c.pass g p none data).violations : Except Fault (List Violation)) = .ok vs) :
    ∃ founds last, Walk g p c.leaves data founds last ∧ vs = founds.flatten := by
  obtain ⟨r, hr, h⟩ := Step.bind_eq_ok.1 h
  rw [c.pass_leaves] at hr
  obtain ⟨founds, hwalk, hviolations⟩ := exists_walk_of_passLinks hr
  cases h
  exact ⟨founds, r.data, hwalk, hviolations⟩

/-- A transform check returns when no observation fails that it makes of the data. -/
theorem Chain.exists_checkTransform {g : Graph} {c : Chain} (hc : ∀ l ∈ c.leaves, l.2.WellFormed)
    {data : Entries Value} (hdata : g.Answers (demandsOf .transform c.leaves) data)
    (fitted : List String) : ∃ vs, c.checkTransform g data fitted = .ok vs := by
  obtain ⟨founds, last, hwalk⟩ : ∃ founds last,
      Walk g { phase := .transform, fitted := some fitted } c.leaves data founds last :=
    exists_walk_of_answers hc hdata
  exact ⟨founds.flatten, violations_of_walk hwalk⟩

/-- The check of both phases returns when the fit pass does and the transform check behind it. -/
theorem Chain.exists_check {g : Graph} {c : Chain} {data : Entries Value}
    {parameters : Option Source} {fit : Outcome}
    (hfit : c.pass g { phase := .fit } parameters data = .ok fit) {vs : List Violation}
    (hvs : c.checkTransform g data fit.fitted = .ok vs) :
    ∃ report, c.check g data parameters = .ok report := by
  obtain ⟨transform, htransform, -⟩ := checkTransform_eq_ok.1 hvs
  unfold check
  rw [Step.bind_of_ok hfit, Step.bind_of_ok htransform]
  exact ⟨_, rfl⟩

/-! ## 2. What is found at each leaf -/

/-- What a pass finds along a row of leaves. -/
structure Leafwise (g : Graph) (pass : Pass) (ls : List (String × Contract)) (data : Entries Value)
    (vs : List Violation) : Prop where
  /-- The violations are those of the leaves, from left to right, each checked against the data as
      all leaves before it leave it. -/
  concat : ∃ founds : List (List Violation), vs = founds.flatten ∧ founds.length = ls.length ∧
    ∀ i stage c, ls[i]? = some (stage, c) →
      ∃ working found, dataBehind g (ls.take i) data = .ok working ∧ founds[i]? = some found ∧
        pass.check g stage c working = .ok found
  /-- Whoever looks up a leaf and a name that it demands finds the verdict on that name there. -/
  verdicts : ∀ i stage c, ls[i]? = some (stage, c) →
    ∃ working, dataBehind g (ls.take i) data = .ok working ∧
      ∀ key t, (key, t) ∈ (c.demand pass.phase).2 →
        ∃ found, Verdict g (.slot (c.demand pass.phase).1) (valueAt working key) key t found ∧
          vs.filter (fun v => v.stage = some stage ∧
              v.finding.heading = .slot (c.demand pass.phase).1 ∧ v.finding.key? = some key) =
            found.toList.map fun f => ⟨some stage, f⟩
  /-- In a transform pass each leaf that keeps state and is not fitted is named once. -/
  unfitted : vs.filter (fun v => v.finding.kind = "NotFitted") =
    if pass.phase = .transform then
      (ls.filter fun l => l.2.needsFit && !pass.counts l.1).map fun l =>
        ⟨some l.1, .notFitted l.2.fittedState.names⟩
    else []

theorem Pass.filter_check {g : Graph} {pass : Pass} {stage : String} {c : Contract}
    {data : Entries Value} {vs : List Violation} (h : pass.check g stage c data = .ok vs)
    (hd : Entries.Distinct (c.demand pass.phase).2) {key : String} {t : TypeSpec}
    (hmem : (key, t) ∈ (c.demand pass.phase).2) :
    ∃ found, Verdict g (.slot (c.demand pass.phase).1) (valueAt data key) key t found ∧
      vs.filter (fun v => v.finding.heading = .slot (c.demand pass.phase).1 ∧
          v.finding.key? = some key) = found.toList.map fun f => ⟨some stage, f⟩ := by
  obtain ⟨input, hinput, rfl⟩ := Pass.check_eq_ok.1 h
  obtain ⟨found, hverdict, hfilter⟩ := filter_checkSchema hd hmem hinput
  -- what is said about the state is about no name
  have hstate : (pass.unfitted stage c).filter (fun v =>
      v.finding.heading = .slot (c.demand pass.phase).1 ∧ v.finding.key? = some key) = [] := by
    refine List.filter_eq_nil_iff.2 fun v hv => ?_
    rw [Pass.mem_unfitted hv]
    simp [Finding.key?]
  refine ⟨found, hverdict, ?_⟩
  rw [List.filter_append, hstate, List.append_nil, ← hfilter]
  refine List.filter_congr fun v hv => ?_
  rw [(mem_checkSchema hinput v hv).2.1]
  simp

theorem Pass.filter_unfitted {g : Graph} {pass : Pass} {stage : String} {c : Contract}
    {data : Entries Value} {vs : List Violation} (h : pass.check g stage c data = .ok vs) :
    vs.filter (fun v => v.finding.kind = "NotFitted") = pass.unfitted stage c := by
  obtain ⟨input, hinput, rfl⟩ := Pass.check_eq_ok.1 h
  have hnone : input.filter (fun v => v.finding.kind = "NotFitted") = [] := by
    refine List.filter_eq_nil_iff.2 fun v hv => ?_
    simpa using (mem_checkSchema hinput v hv).2.2.1
  rw [List.filter_append, hnone, List.nil_append]
  refine List.filter_eq_self.2 fun v hv => ?_
  rw [Pass.mem_unfitted hv]
  rfl

theorem Walk.filter_unfitted {g : Graph} {pass : Pass} {ls : List (String × Contract)}
    {data last : Entries Value} {founds : List (List Violation)}
    (h : Walk g pass ls data founds last) :
    founds.flatten.filter (fun v => v.finding.kind = "NotFitted") =
      ls.flatMap fun l => pass.unfitted l.1 l.2 := by
  induction h with
  | nil _ => rfl
  | cons hcheck _ _ ih =>
      rw [List.flatten_cons, List.filter_append, Pass.filter_unfitted hcheck, ih, List.flatMap_cons]

/-- The stages that keep state and are not fitted, one after the other. -/
theorem flatMap_unfitted (pass : Pass) : ∀ ls : List (String × Contract),
    (ls.flatMap fun l => pass.unfitted l.1 l.2) =
      if pass.phase = .transform then
        (ls.filter fun l => l.2.needsFit && !pass.counts l.1).map fun l =>
          ⟨some l.1, .notFitted l.2.fittedState.names⟩
      else []
  | [] => by simp
  | l :: ls => by
      have ih := flatMap_unfitted pass ls
      rw [List.flatMap_cons, ih]
      unfold Pass.unfitted
      cases pass.phase with
      | fit => rfl
      | transform =>
          simp only [if_true, List.filter_cons, Contract.fitMissing, Bool.and_comm l.2.needsFit]
          split <;> rfl

/-- **What a walk finds is found leaf by leaf.** -/
theorem Walk.leafwise {g : Graph} {pass : Pass} {ls : List (String × Contract)}
    {data last : Entries Value} {founds : List (List Violation)}
    (h : Walk g pass ls data founds last) (hnames : (ls.map Prod.fst).Nodup)
    (hls : ∀ l ∈ ls, l.2.WellFormed) : Leafwise g pass ls data founds.flatten where
  concat := ⟨founds, rfl, h.length_eq, fun _ _ _ hi => h.at_index hi⟩
  verdicts i stage c hi := by
    obtain ⟨working, found, hworking, hfound, hcheck⟩ := h.at_index hi
    refine ⟨working, hworking, fun key t hmem => ?_⟩
    have hc : c.WellFormed := hls (stage, c) (List.mem_of_getElem? hi)
    obtain ⟨f, hverdict, hfilter⟩ :=
      Pass.filter_check hcheck (hc.demand_distinct pass.phase) hmem
    refine ⟨f, hverdict, ?_⟩
    rw [← hfilter, ← h.filter_stage hnames hi hfound, List.filter_filter]
    refine List.filter_congr fun v _ => ?_
    rw [Bool.decide_and, Bool.and_comm]
  unfitted := h.filter_unfitted.trans (flatMap_unfitted pass ls)

/-! ## 3. Checks of a chain -/

/-- **A chain is checked exactly as the row of its leaves.** -/
theorem Chain.checked_leafwise {g : Graph} {c : Chain} (hc : c.WellFormed) :
    (c.leaves.map Prod.fst).Nodup ∧
      (∀ (data : Entries Value) (fitted : List String),
        g.Answers (demandsOf .transform c.leaves) data →
          ∃ vs, c.checkTransform g data fitted = .ok vs ∧
            Leafwise g { phase := .transform, fitted := some fitted } c.leaves data vs) ∧
      ∀ (s : Schema) (phase : Phase), ∃ vs, c.checkStatic g (typed s) phase = .ok vs ∧
        Leafwise g { phase := phase } c.leaves (typed s) vs := by
  have hls : ∀ l ∈ c.leaves, l.2.WellFormed := fun _ hl => hc.of_mem_leaves hl
  refine ⟨hc.nodup_leaves, fun data fitted hdata => ?_, fun s phase => ?_⟩
  · obtain ⟨founds, last, hwalk⟩ : ∃ founds last,
        Walk g { phase := .transform, fitted := some fitted } c.leaves data founds last :=
      exists_walk hls (fun _ hl _ he => mem_demandsOf hl he) hdata
    exact ⟨_, Chain.violations_of_walk hwalk, hwalk.leafwise hc.nodup_leaves hls⟩
  · obtain ⟨founds, last, hwalk⟩ : ∃ founds last,
        Walk g { phase := phase } c.leaves (typed s) founds last :=
      exists_walk hls (fun _ hl _ he => mem_demandsOf hl he) (Graph.Answers.typed g _ s)
    exact ⟨_, Chain.violations_of_walk hwalk, hwalk.leafwise hc.nodup_leaves hls⟩

/-- A chain two deep: its inner stages read what the stage before them drops and edits. -/
def Chain.nestedSample : Chain :=
  ⟨[("clean", .stage {
      transformRequires := [("rows", .sequence .emptyRecord)]
      produced := [("raw", .drop), ("meta", .modify [("seen", .set (.scalar .integer))])] }),
    ("model", .chain [
      ("prepare", .chain [("scale", .stage {
        transformRequires := [("raw", .scalar .string),
          ("meta", .record [("seen", .scalar .integer)] none)]
        fittedState := [("mean", .scalar .float)] })]),
      ("score", .stage { transformRequires := [("rows", .scalar .float)] })])]⟩

/-- The sample on data that its inner stages refuse, one of them not fitted. -/
theorem Chain.checked_leafwise_nested :
    ∃ vs, nestedSample.checkTransform {} [("rows", .text "none"), ("raw", .null)] ["clean"] = .ok vs ∧
      Leafwise {} { phase := .transform, fitted := some ["clean"] } nestedSample.leaves
        [("rows", .text "none"), ("raw", .null)] vs := by
  have hc : nestedSample.WellFormed := by decide
  have hdata : ∀ e ∈ ([("rows", .text "none"), ("raw", .null)] : Entries Value),
      Graph.Observable {} e.2 := by
    simp only [List.forall_mem_cons]
    exact ⟨Graph.observable_text _ _, Graph.observable_null _, fun _ h => absurd h List.not_mem_nil⟩
  exact (Chain.checked_leafwise hc).2.1 _ _ (Graph.Answers.of_observable hdata)

end SchemaFlow
