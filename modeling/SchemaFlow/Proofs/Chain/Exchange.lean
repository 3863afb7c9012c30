import SchemaFlow.Proofs.Chain.Fitting
import SchemaFlow.Proofs.Chain.Locality

/-!
# Independent neighbours

Two stages that stand side by side are independent in a phase if neither produces what the other
produces or demands. Then it does not matter which of them comes first.

* `StageRun.exchange`: each of them finds what it finds behind the other, and both leave the same
  values behind, though the names may arrive in another order.
* `Row.exchange`: so it is in a row of stages, where the stages behind them see no difference.
* `Chain.neighbours_exchange`: the checks of a chain find the same at every stage, with what is found
  at the two exchanged.
-/

namespace SchemaFlow

variable {g : Graph} {pass : Pass} {parameters : Option Source}

/-! ## 1. Independence -/

/-- Neither of two contracts produces a name that the other produces or demands in the phase. -/
structure Contract.Independent (phase : Phase) (a b : Contract) : Prop where
  left : ∀ name ∈ a.produced.names,
    name ∉ b.produced.names ∧ name ∉ Entries.names (b.demand phase).2
  right : ∀ name ∈ b.produced.names,
    name ∉ a.produced.names ∧ name ∉ Entries.names (a.demand phase).2

/-- Productions leave the names as they are that they do not mention. -/
theorem sameUnder_of_effectOn {names : String → Prop} {ps : Produced} {data next : Entries Value}
    (hps : ∀ name ∈ ps.names, ¬ names name) (hnext : effectOn g ps data = .ok next) :
    SameUnder names next data :=
  fun _ hname => valueAt_effectOn (fun hmem => hps _ hmem hname) hnext

/-! ## 2. Two stages -/

/-- What a stage of a flat chain finds, and the data behind it. -/
structure StageRun (g : Graph) (pass : Pass) (parameters : Option Source) (l : String × Contract)
    (data : Entries Value) (found : List Violation) (next : Entries Value) : Prop where
  check : stageViolations g pass l.2 l.1 l.1 parameters data = .ok found
  effect : effectOn g l.2.produced data = .ok next

/-- The check of a stage looks at the names that the stage demands in the phase. -/
theorem stageViolations_congr {c : Contract} {stage name : String} {data other : Entries Value}
    (h : SameUnder (· ∈ Entries.names (c.demand pass.phase).2) data other) :
    stageViolations g pass c stage name parameters data =
      stageViolations g pass c stage name parameters other := by
  have hinput := checkSchema_congr (g := g) (some stage) (.slot (c.demand pass.phase).1) h
  unfold stageViolations Contract.checkStatic Contract.checkTransform Contract.checkFit
  cases hphase : pass.phase with
  | fit =>
      rw [hphase] at hinput
      have hfit : checkSchema g (some stage) (.slot .fitRequires) data c.fitRequires =
          checkSchema g (some stage) (.slot .fitRequires) other c.fitRequires := hinput
      simp only [hfit, hinput]
  | transform =>
      rw [hphase] at hinput
      have htransform : checkSchema g (some stage) (.slot .transformRequires) data
          c.transformRequires =
          checkSchema g (some stage) (.slot .transformRequires) other c.transformRequires := hinput
      simp only [htransform]

namespace StageRun

variable {a b l : String × Contract} {data mid last : Entries Value} {x y found : List Violation}

/-- Everything that is found at a stage names it. -/
theorem stage_of_mem (h : StageRun g pass parameters l data found last) :
    ∀ v ∈ found, v.stage = some l.1 := by
  have hcheck := h.check
  cases hphase : pass.phase with
  | fit =>
      obtain ⟨phase, fitted⟩ := pass
      cases hphase
      intro v hv
      exact (mem_stageViolations hcheck v hv).1
  | transform =>
      have hbare : stageViolations g pass l.2 l.1 l.1 none data = .ok found := by
        unfold stageViolations at hcheck ⊢
        rw [hphase] at hcheck ⊢
        exact hcheck
      rw [Pass.stageViolations_eq] at hbare
      exact Pass.stage_of_mem_check hbare

/-- **Independent neighbours exchange.** Each finds what it finds behind the other, and what stands
    under the names behind both is the same. -/
theorem exchange (h : a.2.Independent pass.phase b.2)
    (ha : StageRun g pass parameters a data x mid) (hb : StageRun g pass parameters b mid y last) :
    ∃ mid' last', StageRun g pass parameters b data y mid' ∧
      StageRun g pass parameters a mid' x last' ∧ SameUnder (fun _ => True) last last' := by
  -- the second stage sees of the data what it saw behind the first one
  have hdemand : SameUnder (· ∈ Entries.names (b.2.demand pass.phase).2) mid data :=
    sameUnder_of_effectOn (fun name hname => (h.left name hname).2) ha.effect
  have hproduced : SameUnder (· ∈ b.2.produced.names) mid data :=
    sameUnder_of_effectOn (fun name hname => (h.left name hname).1) ha.effect
  obtain ⟨mid', hmid', _⟩ := hproduced.eased.effectOn (fun _ hname => hname) hb.effect
  have hfirst : StageRun g pass parameters b data y mid' :=
    ⟨(stageViolations_congr hdemand).symm.trans hb.check, hmid'⟩
  -- the first stage sees behind the second one what it saw of the data
  have hdemand' : SameUnder (· ∈ Entries.names (a.2.demand pass.phase).2) mid' data :=
    sameUnder_of_effectOn (fun name hname => (h.right name hname).2) hmid'
  have hproduced' : SameUnder (· ∈ a.2.produced.names) data mid' := by
    intro name hname
    exact (valueAt_effectOn (h.left name hname).1 hmid').symm
  obtain ⟨last', hlast', _⟩ := hproduced'.eased.effectOn (fun _ hname => hname) ha.effect
  have hsecond : StageRun g pass parameters a mid' x last' :=
    ⟨(stageViolations_congr hdemand').trans ha.check, hlast'⟩
  refine ⟨mid', last', hfirst, hsecond, fun name _ => ?_⟩
  by_cases hname : name ∈ a.2.produced.names
  · calc valueAt last name
        = valueAt mid name := valueAt_effectOn (h.left name hname).1 hb.effect
      _ = valueAt last' name := hproduced'.effectOn ha.effect hlast' name hname
  · have hlast : valueAt last' name = valueAt mid' name := valueAt_effectOn hname hlast'
    rw [hlast]
    by_cases hname' : name ∈ b.2.produced.names
    · exact hproduced.effectOn hb.effect hmid' name hname'
    · calc valueAt last name
          = valueAt mid name := valueAt_effectOn hname' hb.effect
        _ = valueAt data name := valueAt_effectOn hname ha.effect
        _ = valueAt mid' name := (valueAt_effectOn hname' hmid').symm

end StageRun

/-! ## 3. Rows of stages -/

/-- What a pass through a flat chain finds at its stages, and the data behind the last of them. -/
def Row (g : Graph) (pass : Pass) (parameters : Option Source) (ls : List (String × Contract))
    (data : Entries Value) (vs : List Violation) (last : Entries Value) : Prop :=
  ∃ r, passLinks g pass "" parameters (stagesOf ls) data = .ok r ∧ r.violations = vs ∧ r.data = last

section Rows

variable {a b l : String × Contract} {ls pre post : List (String × Contract)}
  {data other last : Entries Value} {vs : List Violation}

theorem row_cons_iff : Row g pass parameters (l :: ls) data vs last ↔
    ∃ found next later, StageRun g pass parameters l data found next ∧
      Row g pass parameters ls next later last ∧ vs = found ++ later := by
  unfold Row stagesOf
  rw [List.map_cons, passLinks, passLink, String.empty_append]
  constructor
  · rintro ⟨r, hr, rfl, rfl⟩
    obtain ⟨first, hfirst, hr⟩ := Step.bind_eq_ok.1 hr
    obtain ⟨later, hlater, hr⟩ := Step.bind_eq_ok.1 hr
    obtain ⟨found, hfound, hfirst⟩ := Step.bind_eq_ok.1 hfirst
    obtain ⟨next, hnext, hfirst⟩ := Step.bind_eq_ok.1 hfirst
    cases hfirst
    cases hr
    exact ⟨found, next, later.violations, ⟨hfound, hnext⟩, ⟨later, hlater, rfl, rfl⟩, rfl⟩
  · rintro ⟨found, next, _, ⟨hfound, hnext⟩, ⟨later, hlater, rfl, rfl⟩, rfl⟩
    rw [Step.bind_of_ok hfound, Step.bind_of_ok hnext, Step.ok_bind, Step.bind_of_ok hlater]
    exact ⟨_, rfl, rfl, rfl⟩

/-- Behind data that has the same values under every name, a row finds the same. -/
theorem Row.same (h : SameUnder (fun _ => True) data other)
    (hrow : Row g pass parameters ls data vs last) :
    ∃ last', Row g pass parameters ls other vs last' := by
  obtain ⟨r, hr, rfl, rfl⟩ := hrow
  obtain ⟨r', hr', _⟩ := passLinks_eased h.eased hr
  have hsame : SameUnder ((fun _ => true) · = true) data other := fun name _ => h name trivial
  have hall : ∀ vs : List Violation, vs.filter (·.within fun _ => true) = vs := by
    intro vs
    refine List.filter_eq_self.2 fun v _ => ?_
    cases hkey : v.finding.key? <;> simp [Violation.within, hkey]
  have hviolations := (passLinks_within hsame hr hr').1
  rw [hall, hall] at hviolations
  exact ⟨r'.data, r', hr', hviolations.symm, rfl⟩

/-- Everything that is found in a row names a stage of it. -/
theorem Row.stage_mem : ∀ {ls : List (String × Contract)} {data last : Entries Value}
    {vs : List Violation}, Row g pass parameters ls data vs last →
      ∀ v ∈ vs, ∃ l ∈ ls, v.stage = some l.1
  | [], _, _, _, ⟨_, hr, rfl, _⟩ => by
      cases hr
      exact fun v hv => absurd hv List.not_mem_nil
  | l :: ls, _, _, _, h => by
      obtain ⟨found, next, later, hfound, hlater, rfl⟩ := row_cons_iff.1 h
      intro v hv
      rcases List.mem_append.1 hv with hv | hv
      · exact ⟨l, List.mem_cons_self, hfound.stage_of_mem v hv⟩
      · obtain ⟨l', hmem, hstage⟩ := Row.stage_mem hlater v hv
        exact ⟨l', List.mem_cons_of_mem _ hmem, hstage⟩

/-- What is found at two neighbours changes places, and nothing else does. -/
structure Exchanged (pre : List (String × Contract)) (a b : String × Contract)
    (post : List (String × Contract)) (vs ws : List Violation) : Prop where
  /-- The findings stand stage by stage. -/
  blocks : ∃ before x y after, vs = before ++ x ++ y ++ after ∧ ws = before ++ y ++ x ++ after ∧
    (∀ v ∈ before, ∃ l ∈ pre, v.stage = some l.1) ∧ (∀ v ∈ x, v.stage = some a.1) ∧
    (∀ v ∈ y, v.stage = some b.1) ∧ ∀ v ∈ after, ∃ l ∈ post, v.stage = some l.1
  /-- Whoever asks for the findings of one stage gets the same ones in the same order. -/
  stagewise : ∀ stage : Option String,
    vs.filter (fun v => v.stage = stage) = ws.filter (fun v => v.stage = stage)

/-- Blocks that name two stages may change places. -/
theorem filter_exchange {x y : List Violation} {s s' : Option String} (hne : s ≠ s')
    (hx : ∀ v ∈ x, v.stage = s) (hy : ∀ v ∈ y, v.stage = s') (before after : List Violation)
    (stage : Option String) :
    (before ++ x ++ y ++ after).filter (fun v => v.stage = stage) =
      (before ++ y ++ x ++ after).filter (fun v => v.stage = stage) := by
  have hnone : ∀ {block : List Violation} {own : Option String}, (∀ v ∈ block, v.stage = own) →
      own ≠ stage → block.filter (fun v => v.stage = stage) = [] := by
    intro block own hblock hown
    refine List.filter_eq_nil_iff.2 fun v hv hstage => hown ?_
    exact (hblock v hv).symm.trans (of_decide_eq_true hstage)
  simp only [List.filter_append]
  by_cases hs : s = stage
  · have hs' : s' ≠ stage := fun h => hne (hs.trans h.symm)
    rw [hnone hy hs', List.append_nil, List.append_nil]
  · rw [hnone hx hs, List.append_nil, List.append_nil]

theorem Exchanged.cons {found ws : List Violation} (h : Exchanged pre a b post vs ws)
    (hfound : ∀ v ∈ found, v.stage = some l.1) :
    Exchanged (l :: pre) a b post (found ++ vs) (found ++ ws) := by
  obtain ⟨⟨before, x, y, after, rfl, rfl, hbefore, hx, hy, hafter⟩, hstagewise⟩ := h
  refine ⟨⟨found ++ before, x, y, after, ?_, ?_, fun v hv => ?_, hx, hy, hafter⟩, fun stage => ?_⟩
  · simp only [List.append_assoc]
  · simp only [List.append_assoc]
  · rcases List.mem_append.1 hv with hv | hv
    · exact ⟨l, List.mem_cons_self, hfound v hv⟩
    · obtain ⟨l', hmem, hstage⟩ := hbefore v hv
      exact ⟨l', List.mem_cons_of_mem _ hmem, hstage⟩
  · rw [List.filter_append found, List.filter_append found, hstagewise stage]

/-- **Independent neighbours exchange in a row of stages.** -/
theorem Row.exchange (h : a.2.Independent pass.phase b.2) (hne : a.1 ≠ b.1) :
    ∀ {pre : List (String × Contract)} {data : Entries Value} {vs : List Violation},
      Row g pass parameters (pre ++ a :: b :: post) data vs last →
      ∃ ws last', Row g pass parameters (pre ++ b :: a :: post) data ws last' ∧
        Exchanged pre a b post vs ws
  | [], data, vs, hrow => by
      obtain ⟨x, mid, _, hx, hmid, rfl⟩ := row_cons_iff.1 hrow
      obtain ⟨y, behind, after, hy, hpost, rfl⟩ := row_cons_iff.1 hmid
      obtain ⟨mid', behind', hy', hx', hsame⟩ := StageRun.exchange h hx hy
      obtain ⟨last', hpost'⟩ := hpost.same hsame
      have hnames : some a.1 ≠ some b.1 := fun heq => hne (Option.some.inj heq)
      refine ⟨y ++ (x ++ after), last', ?_, ⟨[], x, y, after, by simp, by simp, by simp,
        hx.stage_of_mem, hy.stage_of_mem, hpost.stage_mem⟩, fun stage => ?_⟩
      · exact row_cons_iff.2
          ⟨y, mid', _, hy', row_cons_iff.2 ⟨x, behind', after, hx', hpost', rfl⟩, rfl⟩
      · simpa using filter_exchange hnames hx.stage_of_mem hy.stage_of_mem [] after stage
  | l :: pre, data, vs, hrow => by
      obtain ⟨found, next, later, hl, hlater, rfl⟩ := row_cons_iff.1 hrow
      obtain ⟨ws, last', hlater', hexchanged⟩ := Row.exchange h hne hlater
      exact ⟨found ++ ws, last', row_cons_iff.2 ⟨found, next, ws, hl, hlater', rfl⟩,
        hexchanged.cons hl.stage_of_mem⟩

end Rows

/-! ## 4. Checks of a chain -/

namespace Chain

variable {a b : String × Contract} {pre post : List (String × Contract)}

/-- Neighbours commute under a check of flat chains: if it returns, it returns with the two in the
    other order, and with what is found at them exchanged. -/
def CommuteUnder (check : Chain → Except Fault (List Violation)) (pre : List (String × Contract))
    (a b : String × Contract) (post : List (String × Contract)) : Prop :=
  ∀ vs, check ⟨stagesOf (pre ++ a :: b :: post)⟩ = .ok vs →
    ∃ ws, check ⟨stagesOf (pre ++ b :: a :: post)⟩ = .ok ws ∧ Exchanged pre a b post vs ws

theorem names_stagesOf (ls : List (String × Contract)) :
    Chain.names ⟨stagesOf ls⟩ = ls.map Prod.fst := by
  unfold Chain.names stagesOf
  simp

theorem WellFormed.ne_of_neighbours
    (hc : Chain.WellFormed ⟨stagesOf (pre ++ a :: b :: post)⟩) : a.1 ≠ b.1 := by
  have hnames := hc.nodup_leaves
  unfold leaves at hnames
  rw [linkLeaves_stagesOf, List.map_append] at hnames
  have hpair := (List.nodup_append.1 hnames).2.1
  intro heq
  simp [heq] at hpair

/-- No parameters are for a stage that a flat chain does not have. -/
def AllKnown (g : Graph) (parameters : Option Source) (names : List String) : Prop :=
  ∀ s, parameters = some s → ∀ name ∈ s.names g, name ∈ names

theorem unknownStages_eq_nil {names : List String} (h : AllKnown g parameters names) (lead : String) :
    unknownStages g names lead parameters = [] := by
  cases parameters with
  | none => rfl
  | some s =>
      have hnone : (s.names g).filter (fun name => !names.contains name) = [] := by
        refine List.filter_eq_nil_iff.2 fun name hname => ?_
        simpa using h s rfl name hname
      unfold unknownStages
      dsimp only
      rw [hnone]
      rfl

/-- A pass through a flat chain that knows all its parameters finds what it finds at the stages. -/
theorem pass_row {ls : List (String × Contract)} {data : Entries Value} {vs : List Violation}
    (hknown : AllKnown g parameters (ls.map Prod.fst)) :
    (∃ r, Chain.pass g ⟨stagesOf ls⟩ pass parameters data = .ok r ∧ r.violations = vs) ↔
      ∃ last, Row g pass parameters ls data vs last := by
  have hunknown : unknownStages g (Chain.names ⟨stagesOf ls⟩) "" parameters = [] := by
    rw [names_stagesOf]
    exact unknownStages_eq_nil hknown ""
  simp only [pass_eq_ok, hunknown]
  constructor
  · rintro ⟨_, ⟨sub, hsub, rfl⟩, rfl⟩
    exact ⟨sub.data, sub, hsub, rfl, rfl⟩
  · rintro ⟨_, sub, hsub, rfl, -⟩
    exact ⟨_, ⟨sub, hsub, rfl⟩, rfl⟩

/-- **A pass through a flat chain with independent neighbours.** -/
theorem pass_exchange (pass : Pass) (hc : Chain.WellFormed ⟨stagesOf (pre ++ a :: b :: post)⟩)
    (h : a.2.Independent pass.phase b.2)
    (hknown : AllKnown g parameters ((pre ++ a :: b :: post).map Prod.fst)) {data : Entries Value}
    {vs : List Violation}
    (hvs : ∃ r, Chain.pass g ⟨stagesOf (pre ++ a :: b :: post)⟩ pass parameters data = .ok r ∧
      r.violations = vs) :
    ∃ ws, (∃ r, Chain.pass g ⟨stagesOf (pre ++ b :: a :: post)⟩ pass parameters data = .ok r ∧
      r.violations = ws) ∧ Exchanged pre a b post vs ws := by
  have hknown' : AllKnown g parameters ((pre ++ b :: a :: post).map Prod.fst) := by
    intro s hs name hname
    have hperm : (pre ++ a :: b :: post).Perm (pre ++ b :: a :: post) :=
      (List.Perm.swap b a post).append_left pre
    exact (hperm.map Prod.fst).mem_iff.1 (hknown s hs name hname)
  obtain ⟨last, hrow⟩ := (pass_row hknown).1 hvs
  obtain ⟨ws, last', hrow', hexchanged⟩ := Row.exchange h hc.ne_of_neighbours hrow
  exact ⟨ws, (pass_row hknown').2 ⟨last', hrow'⟩, hexchanged⟩

/-- **Independent neighbours commute.** In a flat chain two stages side by side may change places if
    neither produces what the other produces or demands in the phase that is checked: the transform
    check, the static check of a phase and, where all parameters are for stages of the chain, the fit
    check find the same, only that what is found at the two is exchanged. The checks return where
    no observation of theirs fails. -/
theorem neighbours_exchange (g : Graph)
    (hc : Chain.WellFormed ⟨stagesOf (pre ++ a :: b :: post)⟩) :
    (a.2.Independent .transform b.2 → ∀ data fitted,
      CommuteUnder (fun c => c.checkTransform g data fitted) pre a b post) ∧
    (∀ phase, a.2.Independent phase b.2 → ∀ data,
      CommuteUnder (fun c => c.checkStatic g data phase) pre a b post) ∧
    (a.2.Independent .fit b.2 → ∀ data parameters,
      AllKnown g parameters ((pre ++ a :: b :: post).map Prod.fst) →
      CommuteUnder (fun c => c.checkFit g data parameters) pre a b post) ∧
    ∀ data,
      (g.Answers (demandsOf .transform (pre ++ a :: b :: post)) data → ∀ fitted,
        ∃ vs, Chain.checkTransform g ⟨stagesOf (pre ++ a :: b :: post)⟩ data fitted = .ok vs) ∧
      (∀ phase, g.Answers (demandsOf phase (pre ++ a :: b :: post)) data →
        ∃ vs, Chain.checkStatic g ⟨stagesOf (pre ++ a :: b :: post)⟩ data phase = .ok vs) ∧
      (g.Answers (demandsOf .fit (pre ++ a :: b :: post)) data → ∀ v, g.PerStage v →
        linksRead g (g.table v) (stagesOf (pre ++ a :: b :: post)) →
        ∃ vs, Chain.checkFit g ⟨stagesOf (pre ++ a :: b :: post)⟩ data (parametersOf v) = .ok vs) := by
  have hleaves : Chain.leaves ⟨stagesOf (pre ++ a :: b :: post)⟩ = pre ++ a :: b :: post :=
    linkLeaves_stagesOf _
  have hstages : ∀ l ∈ pre ++ a :: b :: post, l.2.WellFormed := by
    intro l hl
    refine hc.of_mem_leaves ?_
    rw [hleaves]
    exact hl
  have hnothing : AllKnown g none ((pre ++ a :: b :: post).map Prod.fst) :=
    fun s hs => absurd hs (by simp)
  refine ⟨fun h data fitted vs hvs => ?_, fun phase h data vs hvs => ?_,
    fun h data parameters hknown vs hvs => ?_, fun data => ⟨fun hdata fitted => ?_,
    fun phase hdata => ?_, fun hdata v hv hread => ?_⟩⟩
  · obtain ⟨ws, hws, hexchanged⟩ :=
      pass_exchange { phase := .transform, fitted := some fitted } hc h hnothing
        (checkTransform_eq_ok.1 hvs)
    exact ⟨ws, checkTransform_eq_ok.2 hws, hexchanged⟩
  · obtain ⟨ws, hws, hexchanged⟩ :=
      pass_exchange { phase := phase } hc h hnothing (checkStatic_eq_ok.1 hvs)
    exact ⟨ws, checkStatic_eq_ok.2 hws, hexchanged⟩
  · obtain ⟨ws, hws, hexchanged⟩ :=
      pass_exchange { phase := .fit } hc h hknown (checkFit_eq_ok.1 hvs)
    exact ⟨ws, checkFit_eq_ok.2 hws, hexchanged⟩
  · rw [← hleaves] at hdata hstages
    exact exists_checkTransform hstages hdata fitted
  · rw [← hleaves] at hdata hstages
    obtain ⟨founds, last, hwalk⟩ : ∃ founds last, Walk g { phase := phase } _ data founds last :=
      exists_walk_of_answers hstages hdata
    exact ⟨founds.flatten, violations_of_walk hwalk⟩
  · rw [← hleaves] at hdata
    obtain ⟨r, hr, -⟩ := pass_takes hc hdata hv hread
    exact ⟨r.violations, checkFit_eq_ok.2 ⟨r, hr, rfl⟩⟩

end Chain

/-! ## 5. Two stages that enrich rows -/

/-- A stage that dates rows. -/
def Contract.dating : Contract :=
  { fitRequires := [("rows", .scalar .string)], transformRequires := [("rows", .scalar .string)],
    fitParameters := [("zone", .scalar .string)], produced := [("date", .set (.scalar .datetime))] }

/-- A stage that counts them, and drops a note. -/
def Contract.counting : Contract :=
  { fitRequires := [("rows", .scalar .integer)], transformRequires := [("rows", .scalar .integer)],
    produced := [("count", .set (.scalar .integer)), ("note", .drop)] }

/-- A stage that reads what the two have made, and the note. -/
def Contract.reviewing : Contract :=
  { transformRequires := [("date", .scalar .datetime), ("count", .scalar .integer),
      ("note", .scalar .string)] }

/-- The two in front of the third. -/
def datedSample : List (String × Contract) :=
  [] ++ ("date", .dating) :: ("count", .counting) :: [("join", .reviewing)]

/-- A zone for the stage that dates rows. -/
def Graph.datedSample : Graph :=
  ⟨#[.object .plain [("date", .node 1)], .object .plain [("zone", .text "UTC")]]⟩

theorem Graph.datedSample_perStage : Graph.datedSample.PerStage (.node 0) := by
  refine ⟨Or.inr ⟨rfl, by simp⟩, fun e he => Or.inr ?_⟩
  have hentries : e ∈ [("date", Value.node 1)] := he
  rw [List.mem_singleton.1 hentries]
  rfl

theorem datedSample_reads :
    linksRead Graph.datedSample (Graph.datedSample.table (.node 0)) (stagesOf datedSample) := by
  have hproper : ∀ name ∈ ["date", "count", "join"], name ≠ ancestorName := by decide
  have hzone : Contract.dating.Observes Graph.datedSample [("zone", .text "UTC")] := by
    intro e he _
    rw [List.mem_singleton.1 he]
    exact Graph.datedSample.observable_text "UTC" _
  have hnothing : ∀ c : Contract, c.Observes Graph.datedSample [] := fun c e he => by cases he
  have htabled := Graph.datedSample.tabled_absent
  exact ⟨hproper _ (by decide), ⟨Graph.tabled_object rfl (by decide), hzone⟩,
    hproper _ (by decide), ⟨htabled, hnothing _⟩, hproper _ (by decide), ⟨htabled, hnothing _⟩,
    trivial⟩

/-- Both checks of the sample, on rows with a note: the two stages may change places. -/
theorem Chain.neighbours_exchange_dated :
    Chain.WellFormed ⟨stagesOf datedSample⟩ ∧
    (∃ vs ws, Chain.checkTransform Graph.datedSample ⟨stagesOf datedSample⟩
        [("rows", .text "r"), ("note", .text "n")] [] = .ok vs ∧
      Chain.checkTransform Graph.datedSample
        ⟨stagesOf [("count", .counting), ("date", .dating), ("join", .reviewing)]⟩
        [("rows", .text "r"), ("note", .text "n")] [] = .ok ws ∧
      Exchanged [] ("date", .dating) ("count", .counting) [("join", .reviewing)] vs ws) ∧
    ∃ vs ws, Chain.checkFit Graph.datedSample ⟨stagesOf datedSample⟩
        [("rows", .text "r"), ("note", .text "n")] (parametersOf (.node 0)) = .ok vs ∧
      Chain.checkFit Graph.datedSample
        ⟨stagesOf [("count", .counting), ("date", .dating), ("join", .reviewing)]⟩
        [("rows", .text "r"), ("note", .text "n")] (parametersOf (.node 0)) = .ok ws ∧
      Exchanged [] ("date", .dating) ("count", .counting) [("join", .reviewing)] vs ws := by
  have hc : Chain.WellFormed ⟨stagesOf datedSample⟩ := by decide
  have hdata : ∀ demanded, Graph.datedSample.Answers demanded
      [("rows", .text "r"), ("note", .text "n")] := by
    intro demanded
    refine .of_observable fun e he => ?_
    simp only [List.mem_cons, List.not_mem_nil, or_false] at he
    rcases he with rfl | rfl <;> exact Graph.datedSample.observable_text _
  have hknown : AllKnown Graph.datedSample (parametersOf (.node 0))
      (datedSample.map Prod.fst) := by
    intro s hs
    obtain rfl : Source.value (.node 0) = s := Option.some.inj hs
    decide
  obtain ⟨htransform, -, hfit, hreturns⟩ := Chain.neighbours_exchange Graph.datedSample hc
  obtain ⟨vs, hvs⟩ := (hreturns _).1 (hdata _) []
  obtain ⟨ws, hws, hexchanged⟩ := htransform ⟨by decide, by decide⟩ _ [] vs hvs
  obtain ⟨vs', hvs'⟩ :=
    (hreturns _).2.2 (hdata _) (.node 0) Graph.datedSample_perStage datedSample_reads
  obtain ⟨ws', hws', hexchanged'⟩ := hfit ⟨by decide, by decide⟩ _ _ hknown vs' hvs'
  exact ⟨hc, ⟨vs, ws, hvs, hws, hexchanged⟩, vs', ws', hvs', hws', hexchanged'⟩

end SchemaFlow
