import SchemaFlow.Proofs.Chain.Leaves

/-!
# Walking along a row of stages

A pass without parameters along a flat row of stages is a walk: at each stage a check, whose
violations are kept, and then the stage's effect on the data.

* `Walk.passLinks` and `exists_walk_of_passLinks`: what a pass returns is what a walk finds.
* `exists_walk`: a walk along well-formed stages gets to the end when no observation fails.
* `Walk.at_index`: each stage is checked against the data as all stages before it leave it.
* `Chain.pass_eq_ok` and those for the checks: what each check of a chain returns is what a pass
  through its links finds.
-/

namespace SchemaFlow

/-! ## 1. One stage -/

namespace Pass

/-- Whether a stage counts as fitted. -/
def counts (pass : Pass) (stage : String) : Bool :=
  match pass.fitted with
  | some names => names.contains stage
  | none => true

/-- The check of one stage, without parameters. -/
def check (pass : Pass) (g : Graph) (stage : String) (c : Contract) (data : Entries Value) :
    Except Fault (List Violation) :=
  match pass.phase with
  | .fit => c.checkStatic g (some stage) data .fit
  | .transform => c.checkTransform g (some stage) data (pass.counts stage)

theorem stageViolations_eq (g : Graph) (pass : Pass) (c : Contract) (stage name : String)
    (data : Entries Value) :
    stageViolations g pass c stage name none data = pass.check g stage c data := by
  unfold stageViolations check
  cases pass.phase <;> rfl

/-- What is said about a stage that keeps state. -/
def unfitted (pass : Pass) (stage : String) (c : Contract) : List Violation :=
  match pass.phase with
  | .fit => []
  | .transform => c.fitMissing (some stage) (pass.counts stage)

/-- The check of a stage is that of what the phase demands, and that of its state. -/
theorem check_eq_ok {pass : Pass} {g : Graph} {stage : String} {c : Contract}
    {data : Entries Value} {vs : List Violation} :
    pass.check g stage c data = .ok vs ↔
      ∃ input, checkSchema g (some stage) (.slot (c.demand pass.phase).1) data
        (c.demand pass.phase).2 = .ok input ∧ vs = input ++ pass.unfitted stage c := by
  unfold check unfitted
  cases pass.phase with
  | fit =>
      unfold Contract.checkStatic
      constructor
      · intro h
        exact ⟨vs, h, (List.append_nil vs).symm⟩
      · rintro ⟨input, h, rfl⟩
        simpa using h
  | transform =>
      unfold Contract.checkTransform
      rw [Step.bind_eq_ok]
      refine exists_congr fun input => and_congr_right fun _ => ?_
      rw [Except.ok.injEq]
      exact eq_comm

theorem check_returns (pass : Pass) {g : Graph} {demanded : List (String × TypeSpec)}
    {data : Entries Value} (h : g.Answers demanded data) (stage : String) {c : Contract}
    (hsub : ∀ e ∈ (c.demand pass.phase).2, e ∈ demanded) :
    ∃ vs, pass.check g stage c data = .ok vs := by
  obtain ⟨input, hinput⟩ :=
    checkSchema_returns h (some stage) (.slot (c.demand pass.phase).1) hsub
  exact ⟨_, check_eq_ok.2 ⟨input, hinput, rfl⟩⟩

/-- A finding about the state of a stage is that it has not been fitted. -/
theorem mem_unfitted {pass : Pass} {stage : String} {c : Contract} {v : Violation}
    (hv : v ∈ pass.unfitted stage c) : v = ⟨some stage, .notFitted c.fittedState.names⟩ := by
  unfold unfitted at hv
  split at hv
  · cases hv
  · unfold Contract.fitMissing at hv
    split at hv
    · exact List.mem_singleton.1 hv
    · cases hv

/-- Everything that is found at a stage names it. -/
theorem stage_of_mem_check {pass : Pass} {g : Graph} {stage : String} {c : Contract}
    {data : Entries Value} {vs : List Violation} (h : pass.check g stage c data = .ok vs) :
    ∀ v ∈ vs, v.stage = some stage := by
  obtain ⟨input, hinput, rfl⟩ := check_eq_ok.1 h
  intro v hv
  rcases List.mem_append.1 hv with hv | hv
  · exact (mem_checkSchema hinput v hv).1
  · rw [mem_unfitted hv]

end Pass

/-! ## 2. Walks -/

/-- The data as a row of stages leaves it. -/
def dataBehind (g : Graph) : List (String × Contract) → Entries Value →
    Except Fault (Entries Value)
  | [], data => .ok data
  | (_, c) :: rest, data => do
    let next ← effectOn g c.produced data
    dataBehind g rest next

/-- A walk along a row of stages: what is found at each of them, and the data behind the last. -/
inductive Walk (g : Graph) (pass : Pass) : List (String × Contract) → Entries Value →
    List (List Violation) → Entries Value → Prop
  | nil (data : Entries Value) : Walk g pass [] data [] data
  | cons {stage : String} {c : Contract} {rest : List (String × Contract)}
      {data next last : Entries Value} {found : List Violation} {later : List (List Violation)} :
      pass.check g stage c data = .ok found → effectOn g c.produced data = .ok next →
      Walk g pass rest next later last → Walk g pass ((stage, c) :: rest) data (found :: later) last

variable {g : Graph} {pass : Pass} {ls : List (String × Contract)} {data last : Entries Value}
  {founds : List (List Violation)}

theorem passLinks_cons_stage (stage : String) (c : Contract) (rest : List (String × Link))
    (data : Entries Value) :
    passLinks g pass "" none ((stage, .stage c) :: rest) data = (do
      let found ← pass.check g stage c data
      let next ← effectOn g c.produced data
      let later ← passLinks g pass "" none rest next
      let clean := if pass.phase = .fit && found.isEmpty then [stage] else []
      .ok { later with
        violations := found ++ later.violations
        fitted := clean ++ later.fitted }) := by
  rw [passLinks, passLink, String.empty_append, Pass.stageViolations_eq]
  cases pass.check g stage c data with
  | error e => rfl
  | ok found =>
      rw [Step.bind_of_ok rfl, Step.bind_of_ok rfl]
      cases effectOn g c.produced data <;> rfl

/-- A pass returns what a walk finds. -/
theorem Walk.passLinks (h : Walk g pass ls data founds last) :
    ∃ r, passLinks g pass "" none (stagesOf ls) data = .ok r ∧ r.violations = founds.flatten ∧
      r.data = last := by
  induction h with
  | nil data =>
      exact ⟨{ data := data }, by rw [stagesOf, List.map_nil, SchemaFlow.passLinks], rfl, rfl⟩
  | @cons stage c rest data next last found later hcheck hnext _ ih =>
      obtain ⟨r, hr, hviolations, hdata⟩ := ih
      unfold stagesOf at hr ⊢
      rw [List.map_cons, passLinks_cons_stage, Step.bind_of_ok hcheck, Step.bind_of_ok hnext,
        Step.bind_of_ok hr]
      exact ⟨_, rfl, by rw [List.flatten_cons, hviolations], hdata⟩

/-- What a pass returns is found on a walk. -/
theorem exists_walk_of_passLinks : ∀ {ls : List (String × Contract)} {data : Entries Value}
    {r : Outcome}, passLinks g pass "" none (stagesOf ls) data = .ok r →
      ∃ founds, Walk g pass ls data founds r.data ∧ r.violations = founds.flatten
  | [], data, r, h => by
      rw [stagesOf, List.map_nil, passLinks] at h
      cases h
      exact ⟨[], .nil data, rfl⟩
  | (stage, c) :: ls, data, r, h => by
      rw [stagesOf, List.map_cons, passLinks_cons_stage] at h
      obtain ⟨found, hcheck, h⟩ := Step.bind_eq_ok.1 h
      obtain ⟨next, hnext, h⟩ := Step.bind_eq_ok.1 h
      obtain ⟨later, hlater, h⟩ := Step.bind_eq_ok.1 h
      cases h
      obtain ⟨founds, hwalk, hviolations⟩ := exists_walk_of_passLinks hlater
      exact ⟨found :: founds, .cons hcheck hnext hwalk, by rw [List.flatten_cons, hviolations]⟩

/-- What a phase demands along a row of stages. -/
def demandsOf (phase : Phase) (ls : List (String × Contract)) : List (String × TypeSpec) :=
  ls.flatMap fun l => (l.2.demand phase).2

theorem mem_demandsOf {phase : Phase} {l : String × Contract} {e : String × TypeSpec} (hl : l ∈ ls)
    (he : e ∈ (l.2.demand phase).2) : e ∈ demandsOf phase ls :=
  List.mem_flatMap.2 ⟨l, hl, he⟩

/-- **A walk along well-formed stages gets to the end.** -/
theorem exists_walk {demanded : List (String × TypeSpec)} :
    ∀ {ls : List (String × Contract)} {data : Entries Value}, (∀ l ∈ ls, l.2.WellFormed) →
      (∀ l ∈ ls, ∀ e ∈ (l.2.demand pass.phase).2, e ∈ demanded) → g.Answers demanded data →
      ∃ founds last, Walk g pass ls data founds last
  | [], data, _, _, _ => ⟨[], data, .nil data⟩
  | (stage, c) :: ls, data, hls, hsub, h => by
      obtain ⟨hc, hls⟩ := List.forall_mem_cons.1 hls
      obtain ⟨hcsub, hsub⟩ := List.forall_mem_cons.1 hsub
      obtain ⟨found, hcheck⟩ := pass.check_returns h stage hcsub
      obtain ⟨next, hnext, _⟩ := effectOn_eq hc.produced.distinct h.readable
      obtain ⟨founds, last, hwalk⟩ := exists_walk hls hsub (h.effectOn hc.produced.distinct hnext)
      exact ⟨found :: founds, last, .cons hcheck hnext hwalk⟩

theorem exists_walk_of_answers (hls : ∀ l ∈ ls, l.2.WellFormed)
    (h : g.Answers (demandsOf pass.phase ls) data) : ∃ founds last, Walk g pass ls data founds last :=
  exists_walk hls (fun _ hl _ he => mem_demandsOf hl he) h

namespace Walk

/-- A walk leaves the data behind that the effects of its stages leave. -/
theorem dataBehind (h : Walk g pass ls data founds last) : dataBehind g ls data = .ok last := by
  induction h with
  | nil data => rfl
  | cons _ hnext _ ih =>
      rw [SchemaFlow.dataBehind, Step.bind_of_ok hnext]
      exact ih

/-- What a walk leaves behind can be observed again. -/
theorem answers (h : Walk g pass ls data founds last) {demanded : List (String × TypeSpec)}
    (hls : ∀ l ∈ ls, l.2.WellFormed) (hdata : g.Answers demanded data) :
    g.Answers demanded last := by
  induction h with
  | nil _ => exact hdata
  | cons _ hnext _ ih =>
      obtain ⟨hc, hls⟩ := List.forall_mem_cons.1 hls
      exact ih hls (hdata.effectOn hc.produced.distinct hnext)

theorem length_eq (h : Walk g pass ls data founds last) : founds.length = ls.length := by
  induction h with
  | nil _ => rfl
  | cons _ _ _ ih => rw [List.length_cons, List.length_cons, ih]

/-- A walk depends on the pass by its phase, and by what it counts as fitted. -/
theorem of_counts {pass' : Pass} (h : Walk g pass ls data founds last)
    (hphase : pass'.phase = pass.phase) (hcounts : ∀ l ∈ ls, pass'.counts l.1 = pass.counts l.1) :
    Walk g pass' ls data founds last := by
  induction h with
  | nil data => exact .nil data
  | cons hcheck hnext _ ih =>
      obtain ⟨hstage, hrest⟩ := List.forall_mem_cons.1 hcounts
      refine .cons ?_ hnext (ih hrest)
      rw [← hcheck]
      unfold Pass.check
      rw [hphase, hstage]

/-- A walk in two parts. -/
theorem append {ls' : List (String × Contract)} {founds' : List (List Violation)}
    {end' : Entries Value} (h : Walk g pass ls data founds last)
    (h' : Walk g pass ls' last founds' end') :
    Walk g pass (ls ++ ls') data (founds ++ founds') end' := by
  induction h with
  | nil _ => exact h'
  | cons hcheck hnext _ ih => exact .cons hcheck hnext (ih h')

theorem of_append : ∀ {ls ls' : List (String × Contract)} {data last : Entries Value}
    {founds : List (List Violation)}, Walk g pass (ls ++ ls') data founds last →
      ∃ first middle later, founds = first ++ later ∧ Walk g pass ls data first middle ∧
        Walk g pass ls' middle later last
  | [], _, data, _, founds, h => ⟨[], data, founds, rfl, .nil data, h⟩
  | (stage, c) :: ls, ls', data, last, _, h => by
      cases h with
      | @cons _ _ _ _ next _ found founds hcheck hnext hrest =>
          obtain ⟨first, middle, later, rfl, hfirst, hlater⟩ := of_append hrest
          exact ⟨found :: first, middle, later, rfl, .cons hcheck hnext hfirst, hlater⟩

/-- **Each stage is checked against the data as all stages before it leave it.** -/
theorem at_index : ∀ {ls : List (String × Contract)} {data last : Entries Value}
    {founds : List (List Violation)}, Walk g pass ls data founds last →
      ∀ {i : Nat} {stage : String} {c : Contract}, ls[i]? = some (stage, c) →
        ∃ working found, SchemaFlow.dataBehind g (ls.take i) data = .ok working ∧
          founds[i]? = some found ∧ pass.check g stage c working = .ok found
  | [], _, _, _, _, i, _, _, hi => by simp at hi
  | (_, _) :: _, data, _, _, h, 0, stage, c, hi => by
      obtain ⟨rfl, rfl⟩ := Prod.mk.inj (Option.some.inj hi)
      cases h with
      | cons hcheck _ _ => exact ⟨data, _, rfl, rfl, hcheck⟩
  | (_, _) :: _, _, _, _, h, i + 1, stage, c, hi => by
      cases h with
      | cons _ hnext hrest =>
          obtain ⟨working, found, hworking, hfound, hcheck⟩ := at_index hrest hi
          refine ⟨working, found, ?_, hfound, hcheck⟩
          rw [List.take_succ_cons, SchemaFlow.dataBehind, Step.bind_of_ok hnext]
          exact hworking

/-- Everything that is found on a walk names a stage of it. -/
theorem stage_mem (h : Walk g pass ls data founds last) :
    ∀ v ∈ founds.flatten, ∃ stage ∈ ls.map Prod.fst, v.stage = some stage := by
  induction h with
  | nil _ => exact fun v hv => absurd hv List.not_mem_nil
  | @cons stage c rest _ _ _ found later hcheck _ _ ih =>
      intro v hv
      rcases List.mem_append.1 (List.flatten_cons ▸ hv) with hv | hv
      · exact ⟨stage, List.mem_cons_self, Pass.stage_of_mem_check hcheck v hv⟩
      · obtain ⟨other, hmem, hstage⟩ := ih v hv
        exact ⟨other, List.mem_cons_of_mem _ hmem, hstage⟩

/-- What is found on a walk about one stage is what is found at it. -/
theorem filter_stage : ∀ {ls : List (String × Contract)} {data last : Entries Value}
    {founds : List (List Violation)}, Walk g pass ls data founds last →
      (ls.map Prod.fst).Nodup → ∀ {i : Nat} {stage : String} {c : Contract},
      ls[i]? = some (stage, c) → ∀ {found : List Violation}, founds[i]? = some found →
        founds.flatten.filter (fun v => v.stage = some stage) = found
  | [], _, _, _, _, _, i, _, _, hi, _, _ => by simp at hi
  | (stage, _) :: ls, _, _, _, h, hd, 0, _, _, hi, found, hfound => by
      obtain ⟨rfl, rfl⟩ := Prod.mk.inj (Option.some.inj hi)
      cases h with
      | cons hcheck _ hrest =>
          obtain rfl := Option.some.inj hfound
          have hnot : stage ∉ ls.map Prod.fst := (List.nodup_cons.1 hd).1
          rw [List.flatten_cons, List.filter_append, List.filter_eq_self.2 fun v hv =>
            decide_eq_true (Pass.stage_of_mem_check hcheck v hv)]
          refine (congrArg _ (List.filter_eq_nil_iff.2 fun v hv hstage => ?_)).trans
            (List.append_nil _)
          obtain ⟨other, hmem, hother⟩ := stage_mem hrest v hv
          rw [decide_eq_true_eq, hother, Option.some.injEq] at hstage
          exact hnot (hstage ▸ hmem)
  | (first, _) :: ls, _, _, _, h, hd, i + 1, stage, c, hi, found, hfound => by
      cases h with
      | cons hcheck _ hrest =>
          have hmem : stage ∈ ls.map Prod.fst :=
            List.mem_map.2 ⟨(stage, c), List.mem_of_getElem? hi, rfl⟩
          have hne : first ≠ stage := by
            rintro rfl
            exact (List.nodup_cons.1 hd).1 hmem
          rw [List.flatten_cons, List.filter_append, List.filter_eq_nil_iff.2 fun v hv hstage => ?_,
            List.nil_append]
          · exact filter_stage hrest (List.nodup_cons.1 hd).2 hi hfound
          · rw [decide_eq_true_eq, Pass.stage_of_mem_check hcheck v hv, Option.some.injEq] at hstage
            exact hne hstage

end Walk

/-! ## 3. Checks of a chain -/

namespace Chain

variable {g : Graph} {c : Chain} {data : Entries Value} {parameters : Option Source}
  {vs : List Violation}

/-- A pass through a chain is one through its links, led by what is said about where parameters go. -/
theorem pass_eq_ok {p : Pass} {r : Outcome} :
    c.pass g p parameters data = .ok r ↔
      ∃ sub, passLinks g p "" parameters c.links data = .ok sub ∧
        { sub with violations := unknownStages g c.names "" parameters ++ sub.violations } = r := by
  unfold pass
  simp only [Step.bind_eq_ok, Except.ok.injEq]

theorem checkFit_eq_ok :
    c.checkFit g data parameters = .ok vs ↔
      ∃ r, c.pass g { phase := .fit } parameters data = .ok r ∧ r.violations = vs := by
  unfold checkFit
  simp only [Step.bind_eq_ok, Except.ok.injEq]

theorem checkTransform_eq_ok {fitted : List String} :
    c.checkTransform g data fitted = .ok vs ↔
      ∃ r, c.pass g { phase := .transform, fitted := some fitted } none data = .ok r ∧
        r.violations = vs := by
  unfold checkTransform
  simp only [Step.bind_eq_ok, Except.ok.injEq]

theorem checkStatic_eq_ok {phase : Phase} :
    c.checkStatic g data phase = .ok vs ↔
      ∃ r, c.pass g { phase := phase } none data = .ok r ∧ r.violations = vs := by
  unfold checkStatic
  simp only [Step.bind_eq_ok, Except.ok.injEq]

end Chain

end SchemaFlow
