import SchemaFlow.Proofs.Chain.Construction
import SchemaFlow.Proofs.Execution.Course

/-!
# Guarded passages

A row of members is fitted, or transforms data, behind a guard. What the guard refuses leaves no
trace: no logic is entered, no state is set and no line is logged. What it lets pass takes an orderly
course, and leaves its traces with the members that it reached.

* `Passage.run_refused` and `Passage.leads_through`: the two things that a guard may do.
* `Passage.outcome`: what becomes of a passage.
-/

namespace SchemaFlow

namespace Passage

/-! ## 1. The guard -/

/-- Data passes through a row. -/
def run (p : Passage) (options : RunOptions) (row : Run.Row) (data : Value) : Run Bag :=
  match p with
  | fit parameters => Run.fitRow options row data parameters
  | transform => Run.transformRow options row data

/-- What a passage is called when it is refused. -/
def name : Passage → String
  | fit _ => "fit"
  | transform => "transform"

/-- What is found of data before it passes through members as they are then. -/
def check (p : Passage) (g : Graph) (ms : List (Nat × Member)) (c : Chain) (table : Entries Value) :
    Except Fault (List Violation) :=
  match p with
  | fit parameters => c.checkFit g table (Chain.parametersOf parameters)
  | transform => c.checkTransform g table (Run.fittedNames ms)

/-- What stands behind the guard. -/
def through (p : Passage) (options : RunOptions) (ms : List (Nat × Member)) (data : Bag) : Run Bag :=
  match p with
  | fit parameters => Run.fitFrom options parameters.orEmpty ms.length 0 ms data
  | transform => Run.transformFrom options ms.length 0 ms data

theorem run_eq (p : Passage) (options : RunOptions) (row : Run.Row) (data : Value) :
    p.run options row data = (do
      let ms ← Run.membersOf row
      let c ← Run.chainOf ms
      let g ← Run.graph
      let table ← Run.lift (g.payload data)
      let found ← Run.lift (p.check g ms c table)
      Run.guardWith options p.name found
      let entries ← Run.lift (g.partsOf data)
      p.through options ms { entries := entries }) := by
  cases p <;> rfl

variable {p : Passage} {options : RunOptions} {row : Run.Row} {data : Value} {s : Session}
  {ms : List (Nat × Member)} {c : Chain} {table : Entries Value} {found : List Violation}

/-- Up to its guard a passage leaves the session as it is. -/
theorem leads_check (hms : (Run.membersOf row).run s = (.ok ms, s))
    (hc : (Run.chainOf ms).run s = (.ok c, s)) (htable : s.graph.payload data = .ok table) :
    Run.Leads (p.run options row data) s
      (Run.lift (p.check s.graph ms c table) >>= fun found =>
        Run.guardWith options p.name found >>= fun _ =>
          Run.lift (s.graph.partsOf data) >>= fun entries =>
            p.through options ms { entries := entries }) s := by
  rw [run_eq]
  refine (Run.leads_bind hms rfl).trans ((Run.leads_bind hc rfl).trans ?_)
  exact (Run.leads_graph _ s).trans (Run.leads_lift htable)

/-- **A passage that its guard refuses leaves the session as it is.** -/
theorem run_refused (hms : (Run.membersOf row).run s = (.ok ms, s))
    (hc : (Run.chainOf ms).run s = (.ok c, s)) (htable : s.graph.payload data = .ok table)
    (hfound : p.check s.graph ms c table = .ok found) (henforce : options.enforce = true)
    (hne : found ≠ []) :
    Run.Leads (p.run options row data) s (.stop (.refused p.name found)) s := by
  have hguard : (Run.guardWith options p.name found).run s =
      (.error (.refused p.name found), s) := by
    unfold Run.guardWith
    rw [if_neg (by simpa using hne), if_pos henforce]
    rfl
  exact (leads_check hms hc htable).trans
    ((Run.leads_lift hfound).trans (Run.leads_stop hguard rfl))

/-- **A passage that its guard lets pass goes through the members**, behind warnings at most. -/
theorem leads_through (hms : (Run.membersOf row).run s = (.ok ms, s))
    (hc : (Run.chainOf ms).run s = (.ok c, s)) (htable : s.graph.payload data = .ok table)
    (hfound : p.check s.graph ms c table = .ok found)
    (hpasses : options.enforce = false ∨ found = []) {entries : Entries Value}
    (hentries : s.graph.partsOf data = .ok entries) :
    ∃ lines, Run.Leads (p.run options row data) s
      (p.through options ms { entries := entries }) (s.tell lines) := by
  obtain ⟨lines, hguard⟩ : ∃ lines, (Run.guardWith options p.name found).run s =
      (.ok (), s.tell lines) := by
    unfold Run.guardWith
    by_cases hempty : found.isEmpty = true
    · rw [if_pos hempty]
      refine ⟨[], ?_⟩
      rw [Session.tell, List.append_nil]
      rfl
    · have hfree : ¬ options.enforce = true := by
        rcases hpasses with h | rfl
        · exact h ▸ Bool.false_ne_true
        · exact absurd rfl hempty
      rw [if_neg hempty, if_neg hfree]
      exact ⟨_, rfl⟩
  refine ⟨lines, (leads_check hms hc htable).trans ((Run.leads_lift hfound).trans ?_)⟩
  exact (Run.leads_bind hguard rfl).trans (Run.leads_lift hentries)

theorem courses_through (p : Passage) (options : RunOptions) (ms : List (Nat × Member)) (data : Bag)
    (s : Session) : Run.Courses p options (p.due ms) data (p.through options ms data) s := by
  cases p with
  | fit parameters => exact Run.courses_fitFrom options parameters ms.length ms 0 data s
  | transform => exact Run.courses_transformFrom options ms.length ms 0 data s

/-! ## 2. Rows -/

/-- The members of a row are there when its positions are. -/
theorem run_membersOf {s : Session} : ∀ {row : Run.Row}, (∀ e ∈ row, e.2 < s.members.length) →
    ∃ ms, (Run.membersOf row).run s = (.ok ms, s) ∧ ms.map (fun e => (e.2.name, e.1)) = row
  | [], _ => ⟨[], rfl, rfl⟩
  | (name, i) :: row, h => by
      obtain ⟨hi, hrow⟩ := List.forall_mem_cons.1 h
      obtain ⟨ms, hms, hrest⟩ := run_membersOf hrow
      have hmember : (Run.memberAt i).run s = (.ok s.members[i], s) := by
        simp only [Run.memberAt, Run.run, List.getElem?_eq_getElem hi]
      refine ⟨(i, { s.members[i] with name := name }) :: ms, ?_, congrArg ((name, i) :: ·) hrest⟩
      rw [Run.membersOf, Run.run_bind, hmember]
      dsimp only
      rw [Run.run_bind, hms]
      rfl

/-- The links of a row. -/
def linksOf (ms : List (Nat × Member)) : List (String × Link) :=
  ms.map fun e => (e.2.name, .stage e.2.stage.contract)

theorem chainOf_eq (ms : List (Nat × Member)) :
    Run.chainOf ms = Run.lift (Chain.ofLinks (Chain.asGiven (linksOf ms))) := by
  unfold Run.chainOf linksOf Chain.asGiven
  rw [List.map_map]
  rfl

theorem named_linksOf (hrow : ms.map (fun e => (e.2.name, e.1)) = row)
    (hnames : ∀ e ∈ row, LinkName e.1) (hdistinct : Entries.Distinct row) :
    Chain.Named (linksOf ms) where
  distinct := by
    have hsame : Entries.names (linksOf ms) = Entries.names row := by
      rw [← hrow, linksOf, Entries.names, Entries.names, List.map_map, List.map_map]
      rfl
    unfold Entries.Distinct
    rw [hsame]
    exact hdistinct
  proper l hl := by
    obtain ⟨e, he, rfl⟩ := List.mem_map.1 hl
    exact hnames (e.2.name, e.1) (hrow ▸ List.mem_map_of_mem he)

/-- A passage through a row that makes no chain leaves the session as it is. -/
theorem run_sealed (hms : (Run.membersOf row).run s = (.ok ms, s)) {fault : Fault}
    (hfault : Chain.ofLinks (Chain.asGiven (linksOf ms)) = .error fault) :
    (p.run options row data).run s = (.error (.fault fault), s) := by
  rw [run_eq]
  refine (Run.leads_bind hms rfl).run_eq.trans ?_
  rw [chainOf_eq]
  exact (Run.leads_lift_error hfault).run_eq

/-! ## 3. What becomes of a passage -/

/-- **What becomes of a passage.** Let a row have members under distinct names that links may have.
    Where the record of one seals the name of another there is no chain to check, and the session stays
    as it is. Otherwise the guard refuses exactly what is enforced and has violations, and leaves the
    session as it is; so does a check that fails. All else takes an orderly course: the calls are the
    first of those that are due, each is made on the data that the ones before passed on, and the last
    one of a passage that is cut short is the one that threw, unless there is an excuse. A session
    records these calls, and a member that none of them enters stays as it is. -/
theorem outcome (p : Passage) (options : RunOptions) {row : Run.Row} {data : Value} {s : Session}
    {entries : Entries Value} (hne : row ≠ []) (hnames : ∀ e ∈ row, LinkName e.1)
    (hdistinct : Entries.Distinct row) (hmembers : ∀ e ∈ row, e.2 < s.members.length)
    (hentries : s.graph.partsOf data = .ok entries) :
    ∃ ms, (Run.membersOf row).run s = (.ok ms, s) ∧ ms.map (fun e => (e.2.name, e.1)) = row ∧
      (Chain.Sealing (Chain.asGiven (linksOf ms)) → ∃ part ∈ recordParts,
        (p.run options row data).run s = (.error (.fault (.sealed part)), s)) ∧
      (¬ Chain.Sealing (Chain.asGiven (linksOf ms)) → ∃ table, s.graph.payload data = .ok table ∧
        (Run.chainOf ms).run s = (.ok ⟨linksOf ms⟩, s) ∧
        (∀ fault, p.check s.graph ms ⟨linksOf ms⟩ table = .error fault →
          (p.run options row data).run s = (.error (.fault fault), s)) ∧
        ∀ found, p.check s.graph ms ⟨linksOf ms⟩ table = .ok found →
          (((p.run options row data).entered s = [] ∧
            ∃ phase vs, ((p.run options row data).run s).1 = .error (.refused phase vs)) ↔
              options.enforce = true ∧ found ≠ []) ∧
          (options.enforce = true → found ≠ [] →
            (p.run options row data).run s = (.error (.refused p.name found), s)) ∧
          (options.enforce = false ∨ found = [] →
            Orderly p options (p.due ms) { entries := entries } ((p.run options row data).entered s)
              ((p.run options row data).run s).1 ((p.run options row data).run s).2)) ∧
      ((p.run options row data).run s).2.calls =
        s.calls ++ ((p.run options row data).entered s).map Entered.call ∧
      ∀ i, (∀ e ∈ (p.run options row data).entered s, e.call.1 ≠ i) →
        ((p.run options row data).run s).2.members[i]? = s.members[i]? := by
  obtain ⟨ms, hms, hrow⟩ := run_membersOf hmembers
  have hlinks : linksOf ms ≠ [] := by
    rintro hnil
    rw [List.map_eq_nil_iff.1 hnil] at hrow
    exact hne hrow.symm
  have hnamed := named_linksOf hrow hnames hdistinct
  refine ⟨ms, hms, hrow, fun hseals => ?_, fun hseals => ?_, Run.calls_run _ s,
    fun i hi => Run.member_run _ hi⟩
  · obtain ⟨part, hpart, hrefused⟩ := Chain.ofLinks_sealing hlinks hnamed hseals
    exact ⟨part, hpart, run_sealed hms hrefused⟩
  · have hchain : (Run.chainOf ms).run s = (.ok ⟨linksOf ms⟩, s) := by
      rw [chainOf_eq, Chain.ofLinks_returns hlinks hnamed hseals]
      rfl
    obtain ⟨table, htable⟩ : ∃ table, s.graph.payload data = .ok table := by
      unfold Graph.payload
      cases s.graph.mapEntries? data with
      | some entries => exact ⟨_, rfl⟩
      | none => exact ⟨entries, hentries⟩
    refine ⟨table, htable, hchain, fun fault hfault => ?_, fun found hfound => ?_⟩
    · exact ((leads_check hms hchain htable).trans (Run.leads_lift_error hfault)).run_eq
    · have hrefused : options.enforce = true → found ≠ [] →
          Run.Leads (p.run options row data) s (.stop (.refused p.name found)) s :=
        run_refused hms hchain htable hfound
      have hpasses : options.enforce = false ∨ found = [] →
          Orderly p options (p.due ms) { entries := entries } ((p.run options row data).entered s)
            ((p.run options row data).run s).1 ((p.run options row data).run s).2 := by
        intro h
        obtain ⟨lines, hleads⟩ := leads_through hms hchain htable hfound h hentries
        exact (hleads.courses (courses_through p options ms _ _)).orderly
      refine ⟨⟨?_, fun ⟨henforce, hviolated⟩ => ?_⟩,
        fun henforce hviolated => (hrefused henforce hviolated).run_eq, hpasses⟩
      · rintro ⟨hnone, phase, vs, hresult⟩
        by_contra hfree
        have hlet : options.enforce = false ∨ found = [] := by
          cases henforce : options.enforce
          · exact .inl rfl
          · exact .inr (by simpa [henforce] using hfree)
        have horderly := hpasses hlet
        rw [hnone] at horderly
        exact horderly.not_refused phase vs hresult
      · have hleads := hrefused henforce hviolated
        exact ⟨hleads.entered_eq, p.name, found, by rw [hleads.run_eq]; rfl⟩

/-- A stage that keeps a mean. -/
def keepingStage : Stage where
  label := "Keep"
  contract := { fittedState := [("mean", .scalar .float)] }
  fit := some fun _ _ => .put "mean" (.whole 3)
  transform data := return data

/-- A stage that fails when it transforms. -/
def failingStage : Stage where
  label := "Fail"
  contract := {}
  transform _ := .fail (.failed "no rows")

/-- A session with the failing stage between two others. -/
def haltedSession : Session where
  members := [⟨"first", keepingStage, []⟩, ⟨"middle", failingStage, []⟩, ⟨"last", keepingStage, []⟩]

/-- All three in a row. -/
def haltedRow : Run.Row := [("first", 0), ("middle", 1), ("last", 2)]

/-- The row is fitted up to the stage that fails; the last one is not reached. -/
theorem outcome_halted : haltedRow ≠ [] ∧ (∀ e ∈ haltedRow, LinkName e.1) ∧
    Entries.Distinct haltedRow ∧ (∀ e ∈ haltedRow, e.2 < haltedSession.members.length) ∧
    haltedSession.graph.partsOf .emptyTable = .ok [] ∧
    ∃ s last, ((fit .absent).run Run.quietOptions haltedRow .emptyTable).run haltedSession =
        (.error (.failed "no rows"), s) ∧
      s.calls = [(0, .fit), (0, .transform), (1, .transform)] ∧
      s.members[2]? = haltedSession.members[2]? ∧
      (((fit .absent).run Run.quietOptions haltedRow .emptyTable).entered haltedSession).getLast? =
        some last ∧ last.error? = some (.failed "no rows") := by
  obtain ⟨s, hrun, hcalls⟩ : ∃ s,
      ((fit .absent).run Run.quietOptions haltedRow .emptyTable).run haltedSession =
        (.error (.failed "no rows"), s) ∧
      s.calls = [(0, .fit), (0, .transform), (1, .transform)] := ⟨_, rfl, rfl⟩
  have hparts : haltedSession.graph.partsOf .emptyTable = .ok [] := rfl
  have hrow : haltedRow ≠ [] := by decide
  obtain ⟨ms, hms, -, hsealed, hopen, -, hkept⟩ :=
    outcome (.fit .absent) Run.quietOptions hrow (by decide) (by decide) (by decide) hparts
  cases hms
  have hunsealed : ¬ Chain.Sealing (Chain.asGiven (linksOf _)) := fun hseals => by
    obtain ⟨part, -, hrefused⟩ := hsealed hseals
    rw [hrun] at hrefused
    cases hrefused
  obtain ⟨table, htable, -, -, hfound⟩ := hopen hunsealed
  cases htable
  have horderly := (hfound [] rfl).2.2 (.inr rfl)
  rw [hrun] at horderly hkept
  rcases horderly.cut _ rfl with ⟨last, hlast, hthrew⟩ | ⟨⟨fault, hfault⟩, -⟩
  · refine ⟨hrow, by decide, by decide, by decide, hparts, s, last, hrun, hcalls, ?_, hlast, hthrew⟩
    exact hkept 2 (by decide)
  · cases hfault

/-- A stage that does nothing. -/
def idleStage : Stage where
  label := "Idle"
  contract := {}
  fit := some fun _ _ => .done ()
  transform data := return data

/-- Two texts: one under the ancestor's name, and one that is called like a part of its type. -/
def screenedData : Entries Value := [("__proto__", .text "x"), ("kind", .text "y")]

/-- A session with the stage and the data. -/
def screenedSession : Session where
  graph := ⟨#[.object .plain screenedData]⟩
  members := [⟨"idle", idleStage, []⟩]

/-- The options of a run that logs schemas only. -/
def schemaOptions : RunOptions := { settings := { stages := false, schemas := true } }

theorem observe_text (g : Graph) (w : String) : g.observe none (.text w) = .ok (.scalar .string) := by
  simp [Graph.observe, Graph.observeAt, leafType]

theorem observedData_screened :
    observedData screenedSession.graph screenedData = .error (.sealed "kind") := by
  simp only [observedData, screenedData, fillObserved, observe_text]
  rfl

/-- The fit of the stage is entered and returns, and then the passage fails. -/
theorem run_screened :
    ∃ s, ((fit .absent).run schemaOptions [("idle", 0)] (.node 0)).run screenedSession =
        (.error (.fault (.sealed "kind")), s) ∧ s.graph = screenedSession.graph ∧
      ((fit .absent).run schemaOptions [("idle", 0)] (.node 0)).entered screenedSession =
        [.fit 0 (.done ()) s] := by
  have hms : (Run.membersOf [("idle", 0)]).run screenedSession =
      (.ok [(0, ⟨"idle", idleStage, []⟩)], screenedSession) := rfl
  have hclean : (fit .absent).check screenedSession.graph [(0, ⟨"idle", idleStage, []⟩)]
      ⟨linksOf [(0, ⟨"idle", idleStage, []⟩)]⟩ screenedData = .ok [] := rfl
  have hdata : screenedSession.graph.partsOf (.node 0) = .ok screenedData := rfl
  have hpasses : schemaOptions.enforce = false ∨ ([] : List Violation) = [] := .inr rfl
  obtain ⟨lines, hleads⟩ := leads_through hms rfl rfl hclean hpasses hdata
  -- what is left of the passage once the fit has returned
  have hrest : ∀ (k : Bag → Run Bag) (t : Session), t.graph = screenedSession.graph →
      Run.Leads (Run.transformLogged schemaOptions 0 "idle" idleStage screenedData >>= k) t
        (.stop (.fault (.sealed "kind"))) t := by
    intro k t ht
    unfold Run.transformLogged
    rw [Run.bind_assoc]
    refine Run.leads_tellSchema_error _ rfl ?_
    rw [ht]
    exact observedData_screened
  have hbehind := hrest
    (fun out => Run.tellStage schemaOptions (.timed (Colour.green.paint "✓ done" ++ " " ++ "idle")) >>=
      fun _ => .done out) ((screenedSession.tell lines).record 0 .fit) rfl
  refine ⟨(screenedSession.tell lines).record 0 .fit, ?_, rfl, ?_⟩
  · rw [hleads.run_eq]
    exact hbehind.run_eq
  · rw [hleads.entered_eq]
    exact congrArg (Entered.fit 0 (.done ()) _ :: ·) hbehind.entered_eq

/-- **A passage may be cut short between two calls.** All values of the data can be observed at all
    times, the parameters are as they are declared, the guard has found nothing and no logic fails, and
    yet the passage fails where it logs the schema of the data. -/
theorem not_outcome_by_calls : ¬ ∀ (options : RunOptions) (row : Run.Row) (data parameters : Value)
    (s t : Session) (entries table : Entries Value) (ms : List (Nat × Member)) (c : Chain)
    (error : RunError), row ≠ [] → (∀ e ∈ row, LinkName e.1) → Entries.Distinct row →
    (∀ e ∈ row, e.2 < s.members.length) → s.graph.partsOf data = .ok entries →
    (∀ es, es <+: ((fit parameters).run options row data).entered s →
      ¬ t.graph.Unobserved (passedOn { entries := entries } es).entries) →
    t.graph.Handed parameters →
    (Run.membersOf row).run s = (.ok ms, s) → (Run.chainOf ms).run s = (.ok c, s) →
    s.graph.payload data = .ok table → (fit parameters).check s.graph ms c table = .ok [] →
    ((fit parameters).run options row data).run s = (.error error, t) →
    ∃ last, (((fit parameters).run options row data).entered s).getLast? = some last ∧
      last.error? = some error := by
  intro h
  obtain ⟨t, hrun, hgraph, hentered⟩ := run_screened
  have hobserved : ∀ es,
      es <+: ((fit .absent).run schemaOptions [("idle", 0)] (.node 0)).entered screenedSession →
        ¬ t.graph.Unobserved (passedOn { entries := screenedData } es).entries := by
    intro es hes
    have hpassed : (passedOn { entries := screenedData } es).entries = screenedData := by
      rw [hentered] at hes
      rcases List.prefix_cons_iff.1 hes with rfl | ⟨rest, rfl, hrest⟩
      · rfl
      · rw [List.prefix_nil.1 hrest]
        rfl
    rw [hpassed]
    rintro ⟨e, he, -, fault, hfault⟩
    simp only [screenedData, List.mem_cons, List.not_mem_nil, or_false] at he
    rcases he with rfl | rfl <;> rw [observe_text] at hfault <;> cases hfault
  have hhanded : t.graph.Handed .absent :=
    ⟨⟨.inl rfl, fun _ h => absurd h List.not_mem_nil⟩, fun _ h => absurd h List.not_mem_nil⟩
  obtain ⟨last, hlast, hthrew⟩ := h schemaOptions [("idle", 0)] (.node 0) .absent screenedSession t
    screenedData screenedData _ _ _ (by decide) (by decide) (by decide) (by decide) rfl hobserved
    hhanded rfl rfl rfl rfl hrun
  rw [hentered] at hlast
  cases hlast
  cases hthrew

end Passage

end SchemaFlow
