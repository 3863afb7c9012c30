import SchemaFlow.Proofs.Chain.Parameters
import SchemaFlow.Proofs.Chain.Verdicts

/-!
# Fit passes

What a fit pass finds is of two sorts. Each leaf finds what its contract and its data tell it, under
its own qualified name. The chains around it find which parameters have no way to a leaf
(`Finding.isRouting`), under names that are built from those of the parameters and may be any.

* `passLinks_bare`: parameters only add findings to those of the data, under a heading of their own.
* `passLinks_fitted`: the leaves that count as fitted are those about which nothing is found but
  where parameters go.
* `Chain.fitted_exact`: so it is in the report of a chain.
-/

namespace SchemaFlow

/-! ## 1. Findings on the way of parameters -/

/-- A finding about parameters that have no way to a stage. -/
def Finding.isRouting : Finding → Bool
  | unknownStage _ => true
  | parametersNotATable => true
  | _ => false

/-- What is found about a key is no finding on the way. -/
theorem Finding.isRouting_of_key {f : Finding} {key : String} (h : f.key? = some key) :
    f.isRouting = false := by
  cases f <;> first | rfl | cases h

/-- A violation that is not about parameters. -/
def Violation.isOfData (v : Violation) : Bool := v.finding.heading ≠ .slot .fitParameters

theorem filter_isOfData_of_heading {vs : List Violation}
    (h : ∀ v ∈ vs, v.finding.heading = .slot .fitParameters) :
    vs.filter Violation.isOfData = [] := by
  refine List.filter_eq_nil_iff.2 fun v hv => ?_
  simp [Violation.isOfData, h v hv]

theorem filter_isOfData_of_isRouting {vs : List Violation}
    (h : ∀ v ∈ vs, v.finding.isRouting = true) : vs.filter Violation.isOfData = [] := by
  refine filter_isOfData_of_heading fun v hv => ?_
  have hv := h v hv
  cases hf : v.finding <;> rw [hf] at hv <;> first | rfl | cases hv

variable {g : Graph}

theorem isRouting_of_mem_unknownStages {names : List String} {lead : String}
    {given : Option Source} {v : Violation} (hv : v ∈ unknownStages g names lead given) :
    v.finding.isRouting = true := by
  cases given with
  | none => cases hv
  | some s =>
      obtain ⟨name, _, rfl⟩ := List.mem_map.1 hv
      rfl

theorem isRouting_of_handOn {stage : String} : ∀ {entries : List (Value × Value)} {b b' : Bag}
    {before found : List Violation}, (∀ v ∈ before, v.finding.isRouting = true) →
      handOn g stage entries b before = .ok (b', found) → ∀ v ∈ found, v.finding.isRouting = true
  | [], _, _, _, _, hbefore, h => by
      cases h
      exact hbefore
  | (key, v) :: rest, b, b', before, found, hbefore, h => by
      rw [handOn] at h
      split at h
      · obtain ⟨name?, _, h⟩ := Step.bind_eq_ok.1 h
        cases name? with
        | none => exact isRouting_of_handOn hbefore h
        | some name =>
            obtain ⟨_, _, h⟩ := Step.bind_eq_ok.1 h
            exact isRouting_of_handOn hbefore h
      · obtain ⟨name, _, h⟩ := Step.bind_eq_ok.1 h
        refine isRouting_of_handOn (List.forall_mem_append.2 ⟨hbefore, ?_⟩) h
        exact List.forall_mem_singleton.2 rfl

theorem isRouting_of_nestedParameters {stage name : String} {parameters given : Option Source}
    {found : List Violation}
    (h : nestedParameters g stage name parameters = .ok (given, found)) :
    ∀ v ∈ found, v.finding.isRouting = true := by
  have hnone : ∀ v ∈ ([] : List Violation), v.finding.isRouting = true :=
    fun _ hv => absurd hv List.not_mem_nil
  cases parameters with
  | none =>
      cases h
      exact hnone
  | some s =>
      rw [nestedParameters] at h
      obtain ⟨w, _, h⟩ := Step.bind_eq_ok.1 h
      split at h
      · cases h
        exact hnone
      · obtain ⟨entries, _, h⟩ := Step.bind_eq_ok.1 h
        obtain ⟨⟨b, strays⟩, hhand, h⟩ := Step.bind_eq_ok.1 h
        cases h
        exact isRouting_of_handOn hnone hhand

/-! ## 2. Findings of a stage -/

theorem Contract.mem_undeclared {c : Contract} {stage : Option String} :
    ∀ {entries : List (Value × Value)} {vs : List Violation},
      c.undeclared g stage entries = .ok vs →
        ∀ v ∈ vs, v.stage = stage ∧ v.finding.isRouting = false ∧
          v.finding.heading = .slot .fitParameters
  | [], _, h => by
      cases h
      exact fun _ hv => absurd hv List.not_mem_nil
  | (key, w) :: rest, vs, h => by
      rw [undeclared] at h
      split at h
      · exact mem_undeclared h
      obtain ⟨name, _, h⟩ := Step.bind_eq_ok.1 h
      split at h
      · exact mem_undeclared h
      obtain ⟨t, _, h⟩ := Step.bind_eq_ok.1 h
      obtain ⟨shown, _, h⟩ := Step.bind_eq_ok.1 h
      obtain ⟨later, hlater, h⟩ := Step.bind_eq_ok.1 h
      cases h
      exact List.forall_mem_cons.2 ⟨⟨rfl, rfl, rfl⟩, mem_undeclared hlater⟩

/-- Everything that a check of declared names finds stands at the stage. -/
theorem isRouting_of_mem_checkSchema {stage : Option String} {heading : Heading}
    {data : Entries Value} {s : Schema} {vs : List Violation}
    (h : checkSchema g stage heading data s = .ok vs) :
    ∀ v ∈ vs, v.stage = stage ∧ v.finding.isRouting = false ∧ v.finding.heading = heading := by
  intro v hv
  obtain ⟨hstage, hheading, _, key, _, hkey⟩ := mem_checkSchema h v hv
  exact ⟨hstage, Finding.isRouting_of_key hkey, hheading⟩

/-- A check of a stage finds what there is to find of its data, and then of its parameters. -/
theorem Contract.checkFit_parts {c : Contract} {stage : Option String} {data : Entries Value}
    {own : Value} {vs : List Violation} (h : c.checkFit g stage data own = .ok vs) :
    ∃ input others, c.checkStatic g stage data .fit = .ok input ∧ vs = input ++ others ∧
      ∀ v ∈ others, v.stage = stage ∧ v.finding.isRouting = false ∧
        v.finding.heading = .slot .fitParameters := by
  unfold checkFit at h
  obtain ⟨input, hinput, h⟩ := Step.bind_eq_ok.1 h
  obtain ⟨_, _, h⟩ := Step.bind_eq_ok.1 h
  obtain ⟨declared, hdeclared, h⟩ := Step.bind_eq_ok.1 h
  obtain ⟨_, _, h⟩ := Step.bind_eq_ok.1 h
  obtain ⟨others, hothers, h⟩ := Step.bind_eq_ok.1 h
  cases h
  exact ⟨input, declared ++ others, hinput, List.append_assoc _ _ _,
    List.forall_mem_append.2 ⟨isRouting_of_mem_checkSchema hdeclared, mem_undeclared hothers⟩⟩

/-- A check of a stage without parameters finds nothing about parameters. -/
theorem Pass.isOfData_of_mem_check {pass : Pass} {stage : String} {c : Contract}
    {data : Entries Value} {vs : List Violation} (h : pass.check g stage c data = .ok vs) :
    ∀ v ∈ vs, v.isOfData = true := by
  obtain ⟨input, hinput, rfl⟩ := Pass.check_eq_ok.1 h
  intro v hv
  rcases List.mem_append.1 hv with hv | hv
  · rw [Violation.isOfData, (mem_checkSchema hinput v hv).2.1]
    cases pass.phase <;> rfl
  · rw [mem_unfitted hv]
    rfl

section Stage

variable {c : Contract} {stage name : String} {parameters : Option Source} {data : Entries Value}
  {vs : List Violation}

/-- Without parameters a stage finds what it finds of its data with them. -/
theorem stageViolations_bare {pass : Pass}
    (h : stageViolations g pass c stage name parameters data = .ok vs) :
    stageViolations g pass c stage name none data = .ok (vs.filter Violation.isOfData) := by
  have hbare : ∀ {ws : List Violation}, stageViolations g pass c stage name none data = .ok ws →
      ws.filter Violation.isOfData = ws := by
    intro ws hws
    rw [Pass.stageViolations_eq] at hws
    exact List.filter_eq_self.2 (Pass.isOfData_of_mem_check hws)
  cases hphase : pass.phase with
  | transform =>
      have hsame : stageViolations g pass c stage name none data = .ok vs := by
        rw [← h]
        unfold stageViolations
        rw [hphase]
      rw [hbare hsame, hsame]
  | fit =>
      cases parameters with
      | none => rw [hbare h, h]
      | some given =>
          unfold stageViolations at h
          rw [hphase] at h
          obtain ⟨own, _, h⟩ := Step.bind_eq_ok.1 h
          obtain ⟨input, others, hinput, rfl, hothers⟩ := Contract.checkFit_parts h
          have hsame : stageViolations g pass c stage name none data = .ok input := by
            unfold stageViolations
            rw [hphase]
            exact hinput
          rw [List.filter_append, hbare hsame,
            filter_isOfData_of_heading fun v hv => (hothers v hv).2.2, List.append_nil, hsame]

/-- Everything that a stage finds when it is fitted names it, and is no finding on the way. -/
theorem mem_stageViolations
    (h : stageViolations g { phase := .fit } c stage name parameters data = .ok vs) :
    ∀ v ∈ vs, v.stage = some stage ∧ v.finding.isRouting = false := by
  unfold stageViolations at h
  cases parameters with
  | none => exact fun v hv => (isRouting_of_mem_checkSchema h v hv).imp_right And.left
  | some given =>
      obtain ⟨own, _, h⟩ := Step.bind_eq_ok.1 h
      obtain ⟨input, others, hinput, rfl, hothers⟩ := Contract.checkFit_parts h
      refine List.forall_mem_append.2 ⟨fun v hv => ?_, fun v hv => (hothers v hv).imp_right And.left⟩
      exact (isRouting_of_mem_checkSchema hinput v hv).imp_right And.left

end Stage

/-! ## 3. Passes without parameters -/

mutual

theorem passLink_bare {pass : Pass} : ∀ {l : Link} {lead name : String}
    {parameters : Option Source} {data : Entries Value} {r : Outcome},
    passLink g pass lead parameters name l data = .ok r →
      ∃ r', passLink g pass lead none name l data = .ok r' ∧
        r'.violations = r.violations.filter Violation.isOfData ∧ r'.data = r.data
  | .stage c, lead, name, parameters, data, r, h => by
      rw [passLink] at h ⊢
      obtain ⟨found, hfound, h⟩ := Step.bind_eq_ok.1 h
      obtain ⟨next, hnext, h⟩ := Step.bind_eq_ok.1 h
      cases h
      rw [Step.bind_of_ok (stageViolations_bare hfound), Step.bind_of_ok hnext]
      exact ⟨_, rfl, rfl, rfl⟩
  | .chain links, lead, name, parameters, data, r, h => by
      rw [passLink] at h ⊢
      obtain ⟨⟨given, found⟩, hgiven, h⟩ := Step.bind_eq_ok.1 h
      obtain ⟨sub, hsub, h⟩ := Step.bind_eq_ok.1 h
      obtain ⟨bare, hbare, hviolations, hdata⟩ := passLinks_bare hsub
      cases h
      rw [nestedParameters, Step.bind_of_ok rfl]
      dsimp only
      rw [Step.bind_of_ok hbare]
      refine ⟨_, rfl, ?_, hdata⟩
      -- what is found on the way is about parameters
      dsimp only
      rw [List.filter_append, List.filter_append,
        filter_isOfData_of_isRouting (isRouting_of_nestedParameters hgiven),
        filter_isOfData_of_isRouting fun _ => isRouting_of_mem_unknownStages]
      exact hviolations

/-- **Parameters only add findings about parameters**: without them a pass returns as well, with the
    same data behind it, and finds what it finds of the data with them. -/
theorem passLinks_bare {pass : Pass} : ∀ {links : List (String × Link)} {lead : String}
    {parameters : Option Source} {data : Entries Value} {r : Outcome},
    passLinks g pass lead parameters links data = .ok r →
      ∃ r', passLinks g pass lead none links data = .ok r' ∧
        r'.violations = r.violations.filter Violation.isOfData ∧ r'.data = r.data
  | [], lead, parameters, data, r, h => by
      rw [passLinks] at h ⊢
      cases h
      exact ⟨_, rfl, rfl, rfl⟩
  | (name, l) :: rest, lead, parameters, data, r, h => by
      rw [passLinks] at h ⊢
      obtain ⟨first, hfirst, h⟩ := Step.bind_eq_ok.1 h
      obtain ⟨later, hlater, h⟩ := Step.bind_eq_ok.1 h
      obtain ⟨first', hfirst', hviolations, hdata⟩ := passLink_bare hfirst
      obtain ⟨later', hlater', hviolations', hdata'⟩ := passLinks_bare hlater
      cases h
      rw [Step.bind_of_ok hfirst', hdata, Step.bind_of_ok hlater']
      refine ⟨_, rfl, ?_, hdata'⟩
      dsimp only
      rw [List.filter_append, hviolations, hviolations']

end

/-! ## 4. Stages that count as fitted -/

/-- Nothing is found about a stage but where parameters go. -/
def CleanAt (vs : List Violation) (stage : String) : Prop :=
  ∀ v ∈ vs, v.stage = some stage → v.finding.isRouting = true

theorem cleanAt_append {vs ws : List Violation} {stage : String} :
    CleanAt (vs ++ ws) stage ↔ CleanAt vs stage ∧ CleanAt ws stage :=
  List.forall_mem_append

/-- What a fit pass says of leaves under names of their own: what it finds but where parameters go
    is about them, and those about which there is nothing of the kind are fitted. -/
structure Outcome.Fits (r : Outcome) (names : List String) : Prop where
  named : ∀ v ∈ r.violations, v.finding.isRouting = false → ∃ name ∈ names, v.stage = some name
  listed : r.fitted.Sublist names
  clean : ∀ name ∈ names, name ∈ r.fitted ↔ CleanAt r.violations name

namespace Outcome.Fits

variable {r : Outcome} {names : List String}

/-- Findings about other names leave a stage clean. -/
theorem cleanAt_of_not_mem (h : r.Fits names) {stage : String} (hstage : stage ∉ names) :
    CleanAt r.violations stage := by
  intro v hv hsame
  by_contra hnot
  obtain ⟨name, hname, hv'⟩ := h.named v hv (eq_false_of_ne_true hnot)
  obtain rfl : stage = name := Option.some.inj (hsame.symm.trans hv')
  exact hstage hname

/-- Findings on the way change nothing. -/
theorem prepend (h : r.Fits names) {found : List Violation}
    (hfound : ∀ v ∈ found, v.finding.isRouting = true) :
    Outcome.Fits { r with violations := found ++ r.violations } names where
  named v hv hnot := by
    rcases List.mem_append.1 hv with hv | hv
    · rw [hfound v hv] at hnot
      cases hnot
    · exact h.named v hv hnot
  listed := h.listed
  clean name hname := by
    have hclean : CleanAt found name := fun v hv _ => hfound v hv
    rw [h.clean name hname, cleanAt_append]
    exact (and_iff_right hclean).symm

/-- Leaves in two groups. -/
theorem append {later : Outcome} {others : List String} (h : r.Fits names)
    (hlater : later.Fits others) (hd : names.Disjoint others) :
    Outcome.Fits { later with
      violations := r.violations ++ later.violations
      fitted := r.fitted ++ later.fitted } (names ++ others) where
  named v hv hnot := by
    rcases List.mem_append.1 hv with hv | hv
    · obtain ⟨name, hname, hstage⟩ := h.named v hv hnot
      exact ⟨name, List.mem_append_left _ hname, hstage⟩
    · obtain ⟨name, hname, hstage⟩ := hlater.named v hv hnot
      exact ⟨name, List.mem_append_right _ hname, hstage⟩
  listed := h.listed.append hlater.listed
  clean name hname := by
    dsimp only
    rw [List.mem_append, cleanAt_append]
    -- each group finds and fits its own names only
    rcases List.mem_append.1 hname with hname | hname
    · have hother : name ∉ others := fun h => hd hname h
      rw [← h.clean name hname, or_iff_left fun hmem => hother (hlater.listed.subset hmem)]
      exact (and_iff_left (hlater.cleanAt_of_not_mem hother)).symm
    · have hother : name ∉ names := fun h => hd h hname
      rw [← hlater.clean name hname, or_iff_right fun hmem => hother (h.listed.subset hmem)]
      exact (and_iff_right (h.cleanAt_of_not_mem hother)).symm

end Outcome.Fits

mutual

theorem passLink_fitted : ∀ {l : Link} {lead name : String} {parameters : Option Source}
    {data : Entries Value} {r : Outcome},
    passLink g { phase := .fit } lead parameters name l data = .ok r →
      ((l.leaves (lead ++ name)).map Prod.fst).Nodup →
        r.Fits ((l.leaves (lead ++ name)).map Prod.fst)
  | .stage c, lead, name, parameters, data, r, h, _ => by
      rw [passLink] at h
      obtain ⟨found, hfound, h⟩ := Step.bind_eq_ok.1 h
      obtain ⟨next, _, h⟩ := Step.bind_eq_ok.1 h
      cases h
      have hnamed := mem_stageViolations hfound
      rw [Link.leaves, List.map_singleton]
      refine ⟨fun v hv _ => ⟨_, List.mem_singleton_self _, (hnamed v hv).1⟩, ?_, ?_⟩
      · dsimp only
        split
        · exact List.Sublist.refl _
        · exact List.nil_sublist _
      · intro stage hstage
        obtain rfl := List.mem_singleton.1 hstage
        cases found with
        | nil =>
            exact iff_of_true (List.mem_singleton_self _) fun _ hv => absurd hv List.not_mem_nil
        | cons v vs =>
            refine iff_of_false (fun h => by cases h) fun hclean => ?_
            obtain ⟨hsame, hnot⟩ := hnamed v List.mem_cons_self
            rw [hclean v List.mem_cons_self hsame] at hnot
            cases hnot
  | .chain links, lead, name, parameters, data, r, h, hd => by
      rw [passLink] at h
      obtain ⟨⟨given, found⟩, hgiven, h⟩ := Step.bind_eq_ok.1 h
      obtain ⟨sub, hsub, h⟩ := Step.bind_eq_ok.1 h
      cases h
      rw [Link.leaves] at hd ⊢
      exact (passLinks_fitted hsub hd).prepend (List.forall_mem_append.2
        ⟨isRouting_of_nestedParameters hgiven, fun _ => isRouting_of_mem_unknownStages⟩)

/-- **The leaves that count as fitted are those about which nothing is found** but where parameters
    go. -/
theorem passLinks_fitted : ∀ {links : List (String × Link)} {lead : String}
    {parameters : Option Source} {data : Entries Value} {r : Outcome},
    passLinks g { phase := .fit } lead parameters links data = .ok r →
      ((linkLeaves lead links).map Prod.fst).Nodup →
        r.Fits ((linkLeaves lead links).map Prod.fst)
  | [], lead, parameters, data, r, h, _ => by
      rw [passLinks] at h
      cases h
      rw [linkLeaves]
      exact ⟨fun _ hv => absurd hv List.not_mem_nil, List.Sublist.refl _,
        fun _ hname => absurd hname List.not_mem_nil⟩
  | (name, l) :: rest, lead, parameters, data, r, h, hd => by
      rw [passLinks] at h
      obtain ⟨first, hfirst, h⟩ := Step.bind_eq_ok.1 h
      obtain ⟨later, hlater, h⟩ := Step.bind_eq_ok.1 h
      cases h
      rw [linkLeaves, List.map_append] at hd ⊢
      obtain ⟨hl, hrest, hdisjoint⟩ := List.nodup_append'.1 hd
      exact (passLink_fitted hfirst hl).append (passLinks_fitted hlater hrest) hdisjoint

end

/-! ## 5. The report of a chain -/

namespace Chain

variable {c : Chain} {data : Entries Value}

/-- A fit pass through a chain, whatever parameters it is given. -/
theorem pass_fitted (hc : c.WellFormed) {parameters : Option Source} {r : Outcome}
    (h : c.pass g { phase := .fit } parameters data = .ok r) : r.Fits (c.leaves.map Prod.fst) := by
  obtain ⟨sub, hsub, rfl⟩ := pass_eq_ok.1 h
  exact (passLinks_fitted hsub hc.nodup_leaves).prepend fun _ => isRouting_of_mem_unknownStages

/-- What a fit check finds of the data is found on a walk along the leaves. -/
theorem walk_of_checkFit {parameters : Option Source} {vs : List Violation}
    (h : c.checkFit g data parameters = .ok vs) :
    ∃ founds last, Walk g { phase := .fit } c.leaves data founds last ∧
      founds.flatten = vs.filter Violation.isOfData := by
  obtain ⟨r, hr, rfl⟩ := checkFit_eq_ok.1 h
  obtain ⟨sub, hsub, rfl⟩ := pass_eq_ok.1 hr
  obtain ⟨bare, hbare, hviolations, _⟩ := passLinks_bare hsub
  rw [passLinks_leaves] at hbare
  obtain ⟨founds, hwalk, hflat⟩ := exists_walk_of_passLinks hbare
  refine ⟨founds, bare.data, hwalk, ?_⟩
  rw [List.filter_append, filter_isOfData_of_isRouting fun _ => isRouting_of_mem_unknownStages,
    List.nil_append, ← hviolations, hflat]

/-- **The fitted list of a report is the stages with a clean fit.** Of the leaves of a chain, in
    their order, it has those about which the fit findings say nothing but where parameters go. A
    check returns its report whenever no observation fails of the data and the parameters. -/
theorem fitted_exact (hc : c.WellFormed) :
    (∀ (data : Entries Value) (parameters : Option Source) (report : Report),
      c.check g data parameters = .ok report →
        report.fitted.Sublist (c.leaves.map Prod.fst) ∧
          ∀ l ∈ c.leaves, l.1 ∈ report.fitted ↔
            ∀ v ∈ report.fit, v.stage = some l.1 → v.finding.isRouting = true) ∧
    ∀ (data : Entries Value) (v : Value), g.Answers (demandsOf .fit c.leaves) data →
      g.Answers (demandsOf .transform c.leaves) data → g.PerStage v →
      linksRead g (g.table v) c.links → ∃ report, c.check g data (parametersOf v) = .ok report := by
  refine ⟨fun data parameters report h => ?_, fun data v hfit htransform hv hread => ?_⟩
  · unfold check at h
    obtain ⟨fit, hfit, h⟩ := Step.bind_eq_ok.1 h
    obtain ⟨transform, _, h⟩ := Step.bind_eq_ok.1 h
    cases h
    have hfits := pass_fitted hc hfit
    exact ⟨hfits.listed, fun l hl => hfits.clean l.1 (List.mem_map_of_mem hl)⟩
  · obtain ⟨fit, hfit, _⟩ := pass_takes hc hfit hv hread
    obtain ⟨vs, hvs⟩ :=
      exists_checkTransform (fun _ hl => hc.of_mem_leaves hl) htransform fit.fitted
    exact exists_check hfit hvs

/-- The sample of parameters in a chain, on data without rows and with no parameters: of its stages
    the nested one whose name all objects know is fitted, and it alone has a clean fit. -/
theorem fitted_exact_seeded :
    seededSample.WellFormed ∧ ∃ report,
      seededSample.check {} [] (parametersOf .absent) = .ok report ∧
      report.fitted = ["prep/toString"] ∧
      ∀ l ∈ seededSample.leaves, l.1 ∈ report.fitted ↔
        ∀ v ∈ report.fit, v.stage = some l.1 → v.finding.isRouting = true := by
  have hc : seededSample.WellFormed := by decide
  have hlist : ((seededSample.check {} [] (parametersOf .absent)).toOption.map fun r => r.fitted) =
      some ["prep/toString"] := by decide +kernel
  cases hcheck : seededSample.check {} [] (parametersOf .absent) with
  | error e =>
      rw [hcheck] at hlist
      cases hlist
  | ok report =>
      rw [hcheck] at hlist
      exact ⟨hc, report, rfl, Option.some.inj hlist, ((fitted_exact hc).1 _ _ _ hcheck).2⟩

/-- A stage in a nested chain. -/
def straySample : Chain := ⟨[("prep", .chain [("p2", .stage {})])]⟩

end Chain

/-- A number for the stage of the sample, and a table under the qualified name of that stage. -/
def Graph.straySample : Graph :=
  ⟨#[.object .plain [("prep", .node 1)], .object .plain [("p2", .whole 5)],
    .object .plain [("prep/p2", .node 3)], .object .plain []]⟩

/-- What the nested chain is given is reported, and nothing is handed on. -/
theorem Graph.straySample_nested :
    nestedParameters straySample "prep" "prep" (some (.value (.node 0))) =
      .ok (some (.bag {}), [⟨some "prep/p2", .parametersNotATable⟩]) := by
  have hproper : ∀ e ∈ ([("p2", .whole 5)] : Entries Value), e.1 ≠ ancestorName := by decide
  exact nestedParameters_of_part rfl rfl rfl (handOn_textKeys straySample "prep" hproper [] [])

/-- **A stage may count as fitted although a fit finding stands under its name**: that its
    parameters are no table, or that there is no stage of the name that a table has outside. -/
theorem Chain.not_fitted_exact :
    straySample.WellFormed ∧
      straySample.check Graph.straySample [] (parametersOf (.node 0)) =
        .ok ⟨[⟨some "prep/p2", .parametersNotATable⟩], [], ["prep/p2"]⟩ ∧
      straySample.check Graph.straySample [] (parametersOf (.node 2)) =
        .ok ⟨[⟨some "prep/p2", .unknownStage ["prep"]⟩], [], ["prep/p2"]⟩ := by
  have hlink : passLink Graph.straySample { phase := .fit } "" (some (.value (.node 0))) "prep"
      (.chain [("p2", .stage {})]) [] =
        .ok { violations := [⟨some "prep/p2", .parametersNotATable⟩], fitted := ["prep/p2"] } := by
    rw [passLink, String.empty_append, Step.bind_of_ok Graph.straySample_nested]
    rfl
  have hpass : straySample.pass Graph.straySample { phase := .fit } (parametersOf (.node 0)) [] =
      .ok { violations := [⟨some "prep/p2", .parametersNotATable⟩], fitted := ["prep/p2"] } := by
    have hsource : parametersOf (.node 0) = some (.value (.node 0)) := rfl
    unfold pass straySample
    rw [passLinks_singleton, hsource, Step.bind_of_ok hlink]
    rfl
  refine ⟨by decide, ?_, rfl⟩
  unfold check
  rw [Step.bind_of_ok hpass]
  rfl

end SchemaFlow
