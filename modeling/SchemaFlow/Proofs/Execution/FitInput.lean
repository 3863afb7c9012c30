import SchemaFlow.Proofs.Chain.Fitting
import SchemaFlow.Proofs.Chain.Requirement
import SchemaFlow.Proofs.Execution.Guarded

/-!
# The input of a fit behind the guard

A row of stages is fitted behind a guard: the chain of the row is checked on the data before any
logic runs. What this guard looks for are the names that the stages declare for their fit. A stage
that declares none for its fit reads its transform input when the data is sent through it, and a
chain counts that input as required for fitting; but the guard lets it pass unseen.

* `Run.Looks` is a run that leaves the session as it is; the guard and all that stands before it are
  of the kind.
* `Run.fitRow_holds`: which names have a value when the logic of some stage is entered.
-/

namespace SchemaFlow

/-! ## 1. Runs that leave the session as it is -/

namespace Run

variable {α β : Type}

/-- A run goes on in the session that its first part leaves. -/
theorem run_bind (r : Run β) (f : β → Run α) (s : Session) :
    (r >>= f).run s = match r.run s with
      | (.ok b, t) => (f b).run t
      | (.error e, t) => (.error e, t) := by
  show (r.bind f).run s = _
  induction r generalizing s with
  | done b => rfl
  | stop e => rfl
  | look next ih => exact ih s s
  | report lines next ih => exact ih (s.tell lines)
  | make supply next ih =>
      simp only [bind, run]
      cases hmade : supply s.graph with
      | ok made => exact ih made.2 _
      | error e => rfl
  | enterFit i logic next ih =>
      simp only [bind, run]
      rcases logic.run i (s.record i .fit) with ⟨e | _, t⟩
      · rfl
      · exact ih t
  | enterTransform i logic next ih =>
      simp only [bind, run]
      rcases logic.run i (s.record i .transform) with ⟨e | out, t⟩
      · rfl
      · exact ih out t

/-- A run that leaves the session as it is. -/
def Looks (r : Run α) : Prop := ∀ s, (r.run s).2 = s

theorem looks_done (a : α) : (done a).Looks := fun _ => rfl

theorem looks_stop (e : RunError) : (stop e : Run α).Looks := fun _ => rfl

theorem looks_look {next : Session → Run α} (h : ∀ s, (next s).Looks) : (look next).Looks :=
  fun s => h s s

theorem looks_lift (x : Except Fault α) : (lift x).Looks := by
  cases x with
  | ok a => exact looks_done a
  | error e => exact looks_stop (.fault e)

theorem looks_graph : graph.Looks := looks_look fun s => looks_done s.graph

theorem looks_memberAt (i : Nat) : (memberAt i).Looks := by
  refine looks_look fun s => ?_
  split
  · exact looks_done _
  · exact looks_stop _

theorem Looks.bind {r : Run β} {f : β → Run α} (hr : r.Looks) (hf : ∀ b, (f b).Looks) :
    (r >>= f).Looks := by
  intro s
  rw [run_bind]
  have hs := hr s
  rcases hres : r.run s with ⟨e | b, t⟩
  · rw [hres] at hs
    exact hs
  · rw [hres] at hs
    obtain rfl : t = s := hs
    exact hf b t

theorem looks_membersOf : ∀ row : Row, (membersOf row).Looks
  | [] => looks_done []
  | (_, i) :: row =>
      (looks_memberAt i).bind fun _ => (looks_membersOf row).bind fun _ => looks_done _

/-- An enforced guard leaves the session as it is, whether it refuses or not. -/
theorem looks_guardWith {options : RunOptions} (henforce : options.enforce = true) (phase : String)
    (found : List Violation) : (guardWith options phase found).Looks := by
  unfold guardWith
  rw [henforce]
  split
  · exact looks_done ()
  · exact looks_stop _

/-- A part that leaves the session as it is fails there, or the rest goes on from there. -/
theorem Looks.run_bind_eq {r : Run β} {f : β → Run α} (hr : r.Looks) {s s' : Session}
    {x : Except RunError α} (h : (r >>= f).run s = (x, s')) :
    ((∃ e, x = .error e) ∧ s' = s) ∨ ∃ b, r.run s = (.ok b, s) ∧ (f b).run s = (x, s') := by
  rw [run_bind] at h
  have hs := hr s
  rcases hres : r.run s with ⟨e | b, t⟩
  · rw [hres] at h hs
    obtain rfl : t = s := hs
    cases h
    exact .inl ⟨⟨e, rfl⟩, rfl⟩
  · rw [hres] at h hs
    obtain rfl : t = s := hs
    exact .inr ⟨b, rfl, h⟩

/-- **What has changed a session has come to the end of every part that leaves it as it is.** -/
theorem Looks.ends {r : Run β} {f : β → Run α} (hr : r.Looks) {s s' : Session}
    {x : Except RunError α} (h : (r >>= f).run s = (x, s')) (hchanged : s' ≠ s) :
    ∃ b, r.run s = (.ok b, s) ∧ (f b).run s = (x, s') :=
  (hr.run_bind_eq h).resolve_left fun hfailed => hchanged hfailed.2

/-- What comes to a result has come to the end of all its parts. -/
theorem Looks.ends_ok {r : Run β} {f : β → Run α} (hr : r.Looks) {s s' : Session} {a : α}
    (h : (r >>= f).run s = (.ok a, s')) :
    ∃ b, r.run s = (.ok b, s) ∧ (f b).run s = (.ok a, s') := by
  refine (hr.run_bind_eq h).resolve_left fun hfailed => ?_
  obtain ⟨⟨e, he⟩, _⟩ := hfailed
  cases he

theorem run_lift_eq_ok {y : Except Fault α} {s t : Session} {a : α}
    (h : (lift y).run s = (.ok a, t)) : y = .ok a := by
  cases y with
  | ok b =>
      cases h
      rfl
  | error e => cases h

theorem run_guardWith_eq_ok {options : RunOptions} (henforce : options.enforce = true)
    {phase : String} {found : List Violation} {s t : Session}
    (h : (guardWith options phase found).run s = (.ok (), t)) : found = [] := by
  unfold guardWith at h
  rw [henforce] at h
  split at h
  · rename_i hempty
    exact List.isEmpty_iff.1 hempty
  · cases h

theorem run_memberAt_eq_ok {i : Nat} {s t : Session} {m : Member}
    (h : (memberAt i).run s = (.ok m, t)) : m ∈ s.members := by
  simp only [memberAt, run] at h
  cases hi : s.members[i]? with
  | none =>
      simp only [hi] at h
      cases h
  | some m' =>
      simp only [hi] at h
      cases h
      exact List.mem_of_getElem? hi

/-- The members of a row are members of the session, under the names of the row. -/
theorem stage_of_membersOf : ∀ {row : Row} {s t : Session} {ms : List (Nat × Member)},
    (membersOf row).run s = (.ok ms, t) → ∀ e ∈ ms, ∃ m ∈ s.members, e.2.stage = m.stage
  | [], _, _, _, h => by
      cases h
      exact fun _ he => absurd he List.not_mem_nil
  | (name, i) :: row, s, t, ms, h => by
      unfold membersOf at h
      obtain ⟨m, hm, h⟩ := (looks_memberAt i).ends_ok h
      obtain ⟨rest, hrest, h⟩ := (looks_membersOf row).ends_ok h
      cases h
      exact List.forall_mem_cons.2 ⟨⟨m, run_memberAt_eq_ok hm, rfl⟩, stage_of_membersOf hrest⟩

end Run

/-! ## 2. What a clean fit check has seen -/

theorem firstUnmet_congr {demand demand' : Contract → Schema} {key : String} :
    ∀ {ls : List (String × Contract)} (present : Bool),
      (∀ l ∈ ls, (demand l.2).find? key = (demand' l.2).find? key) →
        firstUnmet demand key ls present = firstUnmet demand' key ls present
  | [], _, _ => rfl
  | l :: ls, present, h => by
      obtain ⟨hl, hls⟩ := List.forall_mem_cons.1 h
      rw [firstUnmet, firstUnmet, hl, firstUnmet_congr _ hls]

namespace Chain

variable {g : Graph} {ls : List (String × Contract)} {key : String}

/-- **Data that a fit check finds nothing about has all that the stages declare for their fit.** -/
theorem holds_of_checkFit (hls : ∀ l ∈ ls, l.2.WellFormed) {data : Entries Value}
    {parameters : Option Source} (h : Chain.checkFit g ⟨stagesOf ls⟩ data parameters = .ok [])
    (hkey : (requirement Contract.fitRequires (ls.map Prod.snd)).has key = true) :
    holds data key = true := by
  obtain ⟨founds, last, hwalk, hnone⟩ := walk_of_checkFit h
  rw [leaves, linkLeaves_stagesOf] at hwalk
  have hmissed : firstMissing key founds.flatten =
      firstUnmet Contract.fitRequires key ls (holds data key) := hwalk.firstMissing_demand hls
  rw [hnone, List.filter_nil] at hmissed
  by_contra hnot
  obtain ⟨t, ht⟩ := Entries.has_eq_true_iff.1 hkey
  rw [eq_false_of_ne_true hnot, ← find?_requirement hls, ht] at hmissed
  cases hmissed

/-- What a chain requires for fitting is what its stages declare for it, but for names that are read
    by a stage which declares none. -/
theorem find?_requiredFitInput (hls : ∀ l ∈ ls, l.2.WellFormed)
    (hback : ∀ c ∈ ls.map Prod.snd, c.fitRequires = [] → c.transformRequires.has key = false) :
    (requirement Contract.fitDemand (ls.map Prod.snd)).find? key =
      (requirement Contract.fitRequires (ls.map Prod.snd)).find? key := by
  rw [find?_requirement hls, find?_requirement hls]
  refine firstUnmet_congr false fun l hl => ?_
  unfold Contract.fitDemand
  cases hfit : l.2.fitRequires with
  | nil => exact Entries.has_eq_false_iff.1 (hback l.2 (List.mem_map_of_mem hl) hfit)
  | cons e es => rfl

end Chain

/-! ## 3. The guard of a fit -/

namespace Run

/-- **Behind the guard of a fit the data has what the stages declare for their fit.** When the logic
    of any stage of a row has been entered, the chain of the row was built and its check found
    nothing; so the data has a value for every name that the fit of some stage demands from outside,
    and for every name that the chain requires for fitting, unless a stage reads it that declares
    nothing for its fit. -/
theorem fitRow_holds {options : RunOptions} (henforce : options.enforce = true) {row : Row}
    {data parameters : Value} {s s' : Session} {x : Except RunError Bag}
    (hcontracts : ∀ m ∈ s.members, m.stage.contract.WellFormed)
    (h : (fitRow options row data parameters).run s = (x, s')) (hcalls : s'.calls ≠ s.calls) :
    ∃ ms c table, (membersOf row).run s = (.ok ms, s) ∧ (chainOf ms).run s = (.ok c, s) ∧
      s.graph.payload data = .ok table ∧
      (∀ key, (requirement Contract.fitRequires c.contracts).has key = true →
        holds table key = true) ∧
      ∀ key, c.requiredFitInput.has key = true →
        (∀ d ∈ c.contracts, d.fitRequires = [] → d.transformRequires.has key = false) →
          holds table key = true := by
  have hchanged : s' ≠ s := fun hsame => hcalls (congrArg Session.calls hsame)
  -- all that stands in front of the first stage only looks, so it has come to its end
  unfold fitRow at h
  obtain ⟨ms, hms, h⟩ := (looks_membersOf row).ends h hchanged
  obtain ⟨c, hc, h⟩ := (looks_lift _).ends h hchanged
  obtain ⟨g, hg, h⟩ := looks_graph.ends h hchanged
  obtain ⟨table, htable, h⟩ := (looks_lift _).ends h hchanged
  obtain ⟨found, hfound, h⟩ := (looks_lift _).ends h hchanged
  obtain ⟨_, hguard, h⟩ := (looks_guardWith henforce _ found).ends h hchanged
  obtain rfl : s.graph = g := Except.ok.inj (Prod.mk.inj hg).1
  have hclean := run_lift_eq_ok hfound
  rw [run_guardWith_eq_ok henforce hguard] at hclean
  obtain ⟨rfl, -⟩ := eq_stagesOf_of_ofLinks (run_lift_eq_ok hc)
  have hls : ∀ l ∈ ms.map fun e => (e.2.name, e.2.stage.contract), l.2.WellFormed := by
    intro l hl
    obtain ⟨e, he, rfl⟩ := List.mem_map.1 hl
    obtain ⟨m, hm, hstage⟩ := stage_of_membersOf hms e he
    rw [hstage]
    exact hcontracts m hm
  refine ⟨ms, _, table, hms, hc, run_lift_eq_ok htable, fun key hkey => ?_,
    fun key hkey hback => ?_⟩
  · rw [Chain.contracts_stagesOf] at hkey
    exact Chain.holds_of_checkFit hls hclean hkey
  · rw [Chain.requiredFitInput, Chain.contracts_stagesOf] at hkey
    rw [Chain.contracts_stagesOf] at hback
    rw [Entries.has, Chain.find?_requiredFitInput hls hback] at hkey
    exact Chain.holds_of_checkFit hls hclean hkey

/-- A row whose check finds nothing is fitted. -/
theorem run_fitRow (options : RunOptions) {row : Row} {data parameters : Value} {s : Session}
    {ms : List (Nat × Member)} {c : Chain} {table entries : Entries Value}
    (hms : (membersOf row).run s = (.ok ms, s)) (hc : (chainOf ms).run s = (.ok c, s))
    (htable : s.graph.payload data = .ok table)
    (hclean : c.checkFit s.graph table (Chain.parametersOf parameters) = .ok [])
    (hentries : s.graph.partsOf data = .ok entries) :
    (fitRow options row data parameters).run s =
      (fitFrom options parameters.orEmpty ms.length 0 ms { entries := entries }).run s := by
  have hgraph : graph.run s = (.ok s.graph, s) := rfl
  have hlift : ∀ {γ : Type} (a : γ), (lift (.ok a)).run s = (.ok a, s) := fun _ => rfl
  have hguard : (guardWith options "fit" []).run s = (.ok (), s) := rfl
  unfold fitRow
  simp only [run_bind, hms, hc, hgraph, htable, hclean, hentries, hlift, hguard]

/-- A stage that fits on rows. -/
def modelStage : Stage where
  label := "Model"
  contract := { fitRequires := [("rows", .scalar .string)] }
  transform data := return data

/-- A stage with nothing to fit, which reads a raw text. -/
def cleanStage : Stage where
  label := "Clean"
  contract := { transformRequires := [("raw", .scalar .string)] }
  transform data := return data

/-- A session with the two and a payload that has rows only. -/
def rowsSession (calls : List (Nat × Phase)) : Session where
  graph := ⟨#[.object .plain [("rows", .text "x")]]⟩
  members := [⟨"model", modelStage, []⟩, ⟨"clean", cleanStage, []⟩]
  calls := calls

/-- The options of a quiet run. -/
def quietOptions : RunOptions := { settings := { stages := false } }

theorem rowsSession_clean :
    Chain.checkFit (rowsSession []).graph
      ⟨stagesOf [("model", modelStage.contract), ("clean", cleanStage.contract)]⟩
      [("rows", .text "x")] (Chain.parametersOf .absent) = .ok [] := by
  have hobserved : (rowsSession []).graph.observe (some (.scalar .string)) (.text "x") =
      .ok (.scalar .string) := by simp [Graph.observe, Graph.observeAt, leafType]
  have hinput : checkSchema (rowsSession []).graph (some "model") (.slot .fitRequires)
      [("rows", .text "x")] [("rows", .scalar .string)] = .ok [] :=
    checkSchema_eq_nil_iff.2 (List.forall_mem_singleton.2
      (verdict_none_iff.2 ⟨rfl, _, hobserved, by decide⟩))
  have hcheck : modelStage.contract.checkFit (rowsSession []).graph (some "model")
      [("rows", .text "x")] .emptyTable = .ok [] := by
    unfold Contract.checkFit
    rw [show modelStage.contract.fitRequires = [("rows", .scalar .string)] from rfl,
      Step.bind_of_ok hinput]
    rfl
  have hlink : passLink (rowsSession []).graph { phase := .fit } "" (some (.bag {})) "model"
      (.stage modelStage.contract) [("rows", .text "x")] =
        .ok { fitted := ["model"], data := [("rows", .text "x")] } := by
    have hstage : stageViolations (rowsSession []).graph { phase := .fit } modelStage.contract
        "model" "model" (some (.bag {})) [("rows", .text "x")] = .ok [] := hcheck
    rw [passLink, String.empty_append, Step.bind_of_ok hstage]
    rfl
  have hsource : Chain.parametersOf .absent = some (.bag {}) := rfl
  unfold Chain.checkFit Chain.pass stagesOf
  rw [hsource, List.map_cons, passLinks, Step.bind_of_ok hlink]
  rfl

/-- The two stages are fitted in turn on the payload, which has the rows. -/
theorem fitRow_holds_rows :
    ((fitRow quietOptions [("model", 0), ("clean", 1)] (.node 0) .absent).run (rowsSession [])).2 =
        rowsSession [(0, .transform), (1, .transform)] ∧
      ∃ table, (rowsSession []).graph.payload (.node 0) = .ok table ∧
        holds table "rows" = true := by
  have hrun : (fitRow quietOptions [("model", 0), ("clean", 1)] (.node 0) .absent).run
      (rowsSession []) = (.ok { entries := [("rows", .text "x")] },
        rowsSession [(0, .transform), (1, .transform)]) :=
    (run_fitRow quietOptions rfl rfl rfl rowsSession_clean rfl).trans rfl
  have hcontracts : ∀ m ∈ (rowsSession []).members, m.stage.contract.WellFormed := by
    simp only [rowsSession, List.forall_mem_cons]
    exact ⟨by decide, by decide, fun _ h => absurd h List.not_mem_nil⟩
  obtain ⟨ms, c, table, hms, hc, htable, hdeclared, -⟩ :=
    fitRow_holds rfl hcontracts hrun (by simp [rowsSession])
  refine ⟨by rw [hrun], table, htable, hdeclared "rows" ?_⟩
  cases hms
  cases hc
  rfl

/-- **The guard of a fit does not look for all that the chain requires for fitting.** On a payload
    with nothing in it the chain of the second stage requires a raw text, which is not there, and
    yet the stage is entered. -/
theorem not_fitRow_holds :
    ∃ ms c, (membersOf [("clean", 1)]).run (rowsSession []) = (.ok ms, rowsSession []) ∧
      (chainOf ms).run (rowsSession []) = (.ok c, rowsSession []) ∧
      c.requiredFitInput = [("raw", .scalar .string)] ∧
      (rowsSession []).graph.payload .emptyTable = .ok [] ∧ holds [] "raw" = false ∧
      (fitRow quietOptions [("clean", 1)] .emptyTable .absent).run (rowsSession []) =
        (.ok {}, rowsSession [(1, .transform)]) :=
  ⟨_, _, rfl, rfl, rfl, rfl, rfl, rfl⟩

end Run

end SchemaFlow
