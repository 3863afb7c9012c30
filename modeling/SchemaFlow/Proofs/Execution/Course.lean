import SchemaFlow.Proofs.Chain.Parameters
import SchemaFlow.Proofs.Execution.Calls

/-!
# The course of a passage

Data passes through the members of a row, from each to the next, to fit them or only to transform the
data. Which calls are due is known from the start. A passage makes them in their order, each on the
data that the ones before passed on, until one fails or all are made.

Between two calls a passage reads what is not its own: the parameters of the next member, and the
data where its schema is to be logged. What may go wrong there is an `Excuse`.

* `Handed.parametersFor`: parameters as they are declared can be read.
* `observedData_error`: why the schema of data cannot be told.
* `Course` is what a passage does, and `Course.orderly` what this means for its calls.
* `courses_fitFrom` and `courses_transformFrom`: the two ways through a row take this course.
-/

namespace SchemaFlow

/-! ## 1. Parameters of one member -/

namespace Graph

variable {g : Graph} {v : Value}

/-- Under the ancestor's name a plain table gives what it lists, or the founder of all objects. -/
theorem part_plain_ancestor (hplain : g.isPlain v = true) (hv : ∀ f, v ≠ .founder f) :
    g.part v ancestorName = .ok (valueAt (g.listed v) ancestorName) ∨
      g.part v ancestorName = .ok (.founder .object) := by
  unfold valueAt
  cases hlisted : (g.listed v).find? ancestorName with
  | some w =>
      have hfound := find_plain_of_some hplain hv hlisted
      exact .inl (part_of_found hplain (hfound.imp_right .inl))
  | none =>
      -- nothing of its own, so what is behind it decides
      obtain ⟨hworked, hown⟩ := ownPart_plain hplain hv ancestorName
      rw [hlisted] at hown
      have hfind : g.find v ancestorName = ((g.line v).foldr
          (fun w later => (g.ownPart w ancestorName).or later) .absent) := by
        rw [find, hworked]
      rw [line, show g.size + 4 = (g.size + 3) + 1 from rfl, lineFrom, List.foldr_cons, hown,
        Found.absent_or] at hfind
      rcases behind_plain hplain with hbehind | hbehind
      · rw [hbehind] at hfind
        exact .inl (part_of_found hplain (.inr (.inr ⟨hfind, rfl⟩)))
      · rw [hbehind, show g.size + 3 = (g.size + 2) + 1 from rfl] at hfind
        have hancestor : g.find v ancestorName = .ancestor := by
          rw [hfind]
          simp [lineFrom, behind?, ownPart, Family.find_object_ancestor, Found.or]
        refine .inr ?_
        unfold part
        split
        · cases hplain
        · cases hplain
        · cases hplain
        · rw [hancestor, hbehind]
          rfl

/-- What a plain table gives under a name: what it lists there, or what all objects share. -/
theorem part_plain_any (hplain : g.isPlain v = true) (hv : ∀ f, v ≠ .founder f) (name : String) :
    ∃ w, g.part v name = .ok w ∧
      (w = valueAt (g.table v) name ∨ w = .function ∨ w = .founder .object) := by
  rw [table_plain hplain hv]
  by_cases hname : name = ancestorName
  · subst hname
    rcases part_plain_ancestor hplain hv with h | h
    · exact ⟨_, h, .inl rfl⟩
    · exact ⟨_, h, .inr (.inr rfl)⟩
  · rcases part_plain hplain hv hname with h | ⟨-, h⟩
    · exact ⟨_, h, .inl rfl⟩
    · exact ⟨_, h, .inr (.inl rfl)⟩

theorem namedEntries_textKeys (g : Graph) : ∀ entries : Entries Value,
    g.namedEntries (textKeys entries) = .ok entries
  | [] => rfl
  | (name, v) :: entries => by
      have ih := namedEntries_textKeys g entries
      rw [textKeys] at ih
      rw [textKeys, List.map_cons, namedEntries, ih]
      simp [nameOfKey?, textPart, textPartAt]

/-- Parameters as they are declared: a table that has nothing but tables under its names. -/
structure Handed (g : Graph) (parameters : Value) : Prop where
  perStage : g.PerStage parameters
  tabled : ∀ e ∈ g.table parameters, g.Tabled e.2

theorem Handed.valueAt {parameters : Value} (h : g.Handed parameters) (name : String) :
    g.Given (valueAt (g.table parameters) name) ∧ g.Tabled (valueAt (g.table parameters) name) := by
  unfold SchemaFlow.valueAt
  cases hfind : (g.table parameters).find? name with
  | none => exact ⟨.inl rfl, g.tabled_absent⟩
  | some w =>
      have hmem := Entries.mem_of_find? hfind
      exact ⟨h.perStage.contents _ hmem, h.tabled _ hmem⟩

/-- **Parameters as they are declared can be read**, whatever the name of the member. -/
theorem Handed.parametersFor {parameters : Value} (h : g.Handed parameters) (name : String) :
    ∃ given, Run.parametersFor g parameters.orEmpty name = .ok given := by
  have hplain : g.isPlain parameters.orEmpty = true ∧ ∀ f, parameters.orEmpty ≠ .founder f := by
    rcases h.perStage.plain with habsent | hplain
    · unfold Value.orEmpty
      rw [if_pos habsent]
      exact ⟨rfl, fun f => Value.noConfusion⟩
    · cases parameters with
      | absent => cases hplain.1
      | _ => exact hplain
  have htable : g.table parameters.orEmpty = g.table parameters := by
    cases parameters <;> rfl
  obtain ⟨w, hpart, hw⟩ := part_plain_any hplain.1 hplain.2 name
  rw [htable] at hw
  unfold Run.parametersFor
  rw [Step.bind_of_ok hpart]
  rcases hw with rfl | rfl | rfl
  · obtain ⟨hgiven, htabled⟩ := h.valueAt name
    have hread := htabled.parameterEntries
    generalize SchemaFlow.valueAt (g.table parameters) name = w at hgiven htabled hread
    cases w with
    | absent => exact ⟨_, rfl⟩
    | _ =>
        dsimp only [Value.orEmpty, Value.isAbsent] at hread
        simp only [Bool.false_eq_true, if_false] at hread
        dsimp only
        rw [Step.bind_of_ok hread, namedEntries_textKeys]
        exact ⟨_, rfl⟩
  · exact ⟨_, rfl⟩
  · exact ⟨_, rfl⟩

/-! ## 2. The schema of data -/

/-- There is a value in the data whose type cannot be observed. -/
def Unobserved (g : Graph) (data : Entries Value) : Prop :=
  ∃ e ∈ data, e.2.isAbsent = false ∧ ∃ fault, g.observe none e.2 = .error fault

/-- The type of an entry becomes the ancestor of the schema, and has a part of the same name as a
    later entry. -/
def Screens (g : Graph) (e later : String × Value) : Prop :=
  e.1 = ancestorName ∧ e.2.isAbsent = false ∧ later.2.isAbsent = false ∧
    ∃ t, g.observe none e.2 = .ok t ∧ later.1 ∈ t.partNames

/-- An entry of the data has no place in its schema. -/
def Screened (g : Graph) (data : Entries Value) : Prop :=
  ¬ data.Pairwise fun e later => ¬ g.Screens e later

theorem Screened.cons {data : Entries Value} (h : g.Screened data) (e : String × Value) :
    g.Screened (e :: data) := fun hall => h (List.pairwise_cons.1 hall).2

theorem Unobserved.cons {data : Entries Value} (h : g.Unobserved data) (e : String × Value) :
    g.Unobserved (e :: data) := by
  obtain ⟨e', he', hrest⟩ := h
  exact ⟨e', List.mem_cons_of_mem _ he', hrest⟩

end Graph

theorem fillObserved_error {g : Graph} {fault : Fault} :
    ∀ {data : Entries Value} {f : Filling TypeSpec}, fillObserved g f data = .error fault →
      g.Unobserved data ∨ g.Screened data ∨ ∃ e ∈ data, e.2.isAbsent = false ∧ e.1 ∈ f.kept
  | [], f, h => by cases h
  | (key, v) :: data, f, h => by
      -- what is wrong with the rest is wrong with the whole
      have hlater : ∀ f' : Filling TypeSpec, fillObserved g f' data = .error fault →
          (∀ e ∈ data, e.2.isAbsent = false → e.1 ∈ f'.kept →
            g.Screens (key, v) e ∨ e.1 ∈ f.kept) →
          g.Unobserved ((key, v) :: data) ∨ g.Screened ((key, v) :: data) ∨
            ∃ e ∈ (key, v) :: data, e.2.isAbsent = false ∧ e.1 ∈ f.kept := by
        intro f' hf' hkept
        rcases fillObserved_error hf' with h | h | ⟨e, he, hpresent, hmem⟩
        · exact .inl (h.cons _)
        · exact .inr (.inl (h.cons _))
        · rcases hkept e he hpresent hmem with hscreens | hmem
          · exact .inr (.inl fun hall => (List.pairwise_cons.1 hall).1 e he hscreens)
          · exact .inr (.inr ⟨e, List.mem_cons_of_mem _ he, hpresent, hmem⟩)
      rw [fillObserved] at h
      by_cases habsent : v.isAbsent = true
      · rw [if_pos habsent] at h
        exact hlater f h fun e _ _ hmem => .inr hmem
      · rw [if_neg habsent] at h
        have hpresent : v.isAbsent = false := eq_false_of_ne_true habsent
        cases hobserved : g.observe none v with
        | error e => exact .inl ⟨(key, v), List.mem_cons_self, hpresent, e, hobserved⟩
        | ok t =>
            rw [Step.bind_of_ok hobserved] at h
            by_cases hkey : key = ancestorName
            · subst hkey
              rw [Filling.store_ancestor] at h
              exact hlater _ h fun e _ he hmem => .inl ⟨rfl, hpresent, he, t, hobserved, hmem⟩
            · cases hstore : f.store t.partNames key t with
              | some f' =>
                  rw [hstore] at h
                  obtain ⟨-, -, hkept⟩ := Filling.store_entry hkey hstore
                  exact hlater f' h fun e _ _ hmem => .inr (hkept ▸ hmem)
              | none =>
                  unfold Filling.store at hstore
                  rw [if_neg hkey] at hstore
                  split at hstore
                  · rename_i htaken
                    have hmem : key ∈ f.kept :=
                      List.contains_iff_mem.1 (Bool.and_eq_true_iff.1 htaken).2
                    exact .inr (.inr ⟨(key, v), List.mem_cons_self, hpresent, hmem⟩)
                  · cases hstore

/-- **Why the schema of data cannot be told.** -/
theorem observedData_error {g : Graph} {data : Entries Value} {fault : Fault}
    (h : observedData g data = .error fault) : g.Unobserved data ∨ g.Screened data := by
  unfold observedData at h
  cases hfill : fillObserved g {} data with
  | ok f =>
      rw [hfill] at h
      cases h
  | error e =>
      rcases fillObserved_error hfill with h | h | ⟨_, _, _, hmem⟩
      · exact .inl h
      · exact .inr h
      · cases hmem

/-! ## 3. Courses -/

/-- The two ways through a row. -/
inductive Passage
  | fit (parameters : Value)
  | transform

/-- A call that a passage is to make. -/
inductive Due
  | fit (i : Nat) (name : String) (logic : (data parameters : Source) → Script Unit)
  | transform (i : Nat) (logic : Bag → Script Bag)

/-- A call that is due as a session will record it. -/
def Due.call : Due → Nat × Phase
  | fit i _ _ => (i, .fit)
  | transform i _ => (i, .transform)

namespace Passage

/-- The fit that is due of a member, where its stage has one. -/
def fitDue (i : Nat) (m : Member) : List Due := (m.stage.fit.map (.fit i m.name)).toList

/-- The calls that are due of a row: the transform of each member, behind its fit. -/
def due (p : Passage) (ms : List (Nat × Member)) : List Due :=
  ms.flatMap fun (i, m) =>
    match p with
    | fit _ => fitDue i m ++ [.transform i m.stage.transform]
    | transform => [.transform i m.stage.transform]

end Passage

/-- A call is made as it is due, on the data that was passed on to it: a fit with the parameters of
    the member. -/
inductive Due.Made (p : Passage) (data : Bag) : Due → Entered → Prop
  | fit {parameters : Value} {i : Nat} {name : String}
      {logic : (data parameters : Source) → Script Unit} {given : Bag} {s : Session} :
      p = .fit parameters → Run.parametersFor s.graph parameters.orEmpty name = .ok given →
      Made p data (.fit i name logic) (.fit i (logic (.bag data) (.bag given)) s)
  | transform {i : Nat} {logic : Bag → Script Bag} {s : Session} :
      Made p data (.transform i logic) (.transform i (logic { entries := data.entries }) s)

/-- What may end a passage between two calls, in the containers that there are: a schema that is to be
    logged and cannot be told, or parameters that are not as they are declared. -/
inductive Excuse (p : Passage) (options : RunOptions) (data : Entries Value) (g : Graph) : Prop
  | unobserved : options.settings.schemas = true → g.Unobserved data → Excuse p options data g
  | screened : options.settings.schemas = true → g.Screened data → Excuse p options data g
  | unread {parameters : Value} : p = .fit parameters → ¬ g.Handed parameters →
      Excuse p options data g

/-- The data behind calls. -/
def passedOn (data : Bag) (es : List Entered) : Bag :=
  es.foldl (fun data e => e.passes data) data

/-- **The course of a passage**: from the calls that are due and the data, by the calls that are made,
    to a result in a session. -/
inductive Course (p : Passage) (options : RunOptions) :
    List Due → Bag → List Entered → Except RunError Bag → Session → Prop
  | done (data : Bag) (s : Session) : Course p options [] data [] (.ok data) s
  | excused {due : List Due} {data : Bag} {s : Session} (fault : Fault) :
      Excuse p options data.entries s.graph →
      Course p options due data [] (.error (.fault fault)) s
  | failed {d : Due} {data : Bag} {e : Entered} {error : RunError} (due : List Due) (s : Session) :
      d.Made p data e → e.error? = some error →
      Course p options (d :: due) data [e] (.error error) s
  | call {d : Due} {due : List Due} {data : Bag} {e : Entered} {es : List Entered}
      {x : Except RunError Bag} {s : Session} :
      d.Made p data e → e.error? = none → Course p options due (e.passes data) es x s →
      Course p options (d :: due) data (e :: es) x s

/-- What is said of the calls of a passage: they are the first of those that are due; each is made on
    the data that the ones before passed on, all of which returned; all are made where the passage
    returns; and where it is cut short the last one threw, unless there is an excuse. -/
structure Orderly (p : Passage) (options : RunOptions) (due : List Due) (data : Bag)
    (es : List Entered) (x : Except RunError Bag) (s : Session) : Prop where
  inOrder : es.map Entered.call <+: due.map Due.call
  made : ∀ before e after, es = before ++ e :: after →
    (∃ d, due[before.length]? = some d ∧ d.Made p (passedOn data before) e) ∧
      ∀ e' ∈ before, e'.error? = none
  whole : ∀ out, x = .ok out →
    es.map Entered.call = due.map Due.call ∧ (∀ e ∈ es, e.error? = none) ∧ passedOn data es = out
  cut : ∀ error, x = .error error →
    (∃ last, es.getLast? = some last ∧ last.error? = some error) ∨
      (∃ fault, error = .fault fault) ∧ Excuse p options (passedOn data es).entries s.graph

/-- An orderly passage that has made no call is not refused. -/
theorem Orderly.not_refused {p : Passage} {options : RunOptions} {due : List Due} {data : Bag}
    {x : Except RunError Bag} {s : Session} (h : Orderly p options due data [] x s)
    (phase : String) (found : List Violation) : x ≠ .error (.refused phase found) := by
  intro hx
  rcases h.cut _ hx with ⟨last, hlast, -⟩ | ⟨⟨fault, hfault⟩, -⟩
  · cases hlast
  · cases hfault

theorem Due.Made.call {p : Passage} {data : Bag} {d : Due} {e : Entered} (h : d.Made p data e) :
    e.call = d.call := by
  cases h <;> rfl

/-- **The course of a passage is orderly.** -/
theorem Course.orderly {p : Passage} {options : RunOptions} {due : List Due} {data : Bag}
    {es : List Entered} {x : Except RunError Bag} {s : Session}
    (h : Course p options due data es x s) : Orderly p options due data es x s := by
  induction h with
  | done data s =>
      refine ⟨List.prefix_rfl, ?_, ?_, fun _ h => (by cases h)⟩
      · intro before e after h
        exact absurd h (by simp)
      · rintro out ⟨⟩
        exact ⟨rfl, fun _ h => absurd h List.not_mem_nil, rfl⟩
  | excused fault hexcuse =>
      refine ⟨List.nil_prefix, ?_, fun _ h => (by cases h), ?_⟩
      · intro before e after h
        exact absurd h (by simp)
      · rintro _ ⟨⟩
        exact .inr ⟨⟨fault, rfl⟩, hexcuse⟩
  | @failed d data e error due s hmade herror =>
      refine ⟨?_, ?_, fun _ h => (by cases h), ?_⟩
      · rw [List.map_singleton, hmade.call]
        exact List.prefix_append [d.call] (due.map Due.call)
      · intro before e' after h
        obtain ⟨rfl, hcons⟩ := List.singleton_eq_append_iff.1 h |>.resolve_right (by simp)
        cases hcons
        exact ⟨⟨d, rfl, hmade⟩, fun _ h => absurd h List.not_mem_nil⟩
      · rintro _ ⟨⟩
        exact .inl ⟨e, rfl, herror⟩
  | @call d due data e es x s hmade hnone hcourse ih =>
      refine ⟨?_, ?_, ?_, ?_⟩
      · rw [List.map_cons, List.map_cons, hmade.call]
        exact (List.prefix_cons_inj _).2 ih.inOrder
      · intro before e' after h
        cases before with
        | nil =>
            cases h
            exact ⟨⟨d, rfl, hmade⟩, fun _ h => absurd h List.not_mem_nil⟩
        | cons first before =>
            cases h
            obtain ⟨hdue, hbefore⟩ := ih.made before e' after rfl
            exact ⟨hdue, List.forall_mem_cons.2 ⟨hnone, hbefore⟩⟩
      · intro out hout
        obtain ⟨hcalls, hnones, hpassed⟩ := ih.whole out hout
        exact ⟨by rw [List.map_cons, List.map_cons, hmade.call, hcalls],
          List.forall_mem_cons.2 ⟨hnone, hnones⟩, hpassed⟩
      · intro error herror
        rcases ih.cut error herror with ⟨last, hlast, hthrew⟩ | hexcuse
        · refine .inl ⟨last, ?_, hthrew⟩
          rw [List.getLast?_cons, hlast]
          rfl
        · exact .inr hexcuse

/-! ## 4. Runs that take a course -/

namespace Run

variable {β : Type} {p : Passage} {options : RunOptions} {due : List Due} {data : Bag}
  {s t : Session} {r r' : Run Bag}

/-- A run takes a course in a session. -/
def Courses (p : Passage) (options : RunOptions) (due : List Due) (data : Bag) (r : Run Bag)
    (s : Session) : Prop :=
  Course p options due data (r.entered s) (r.run s).1 (r.run s).2

theorem Leads.courses (h : Leads r s r' t) (h' : Courses p options due data r' t) :
    Courses p options due data r s := by
  unfold Courses
  rw [h.run_eq, h.entered_eq]
  exact h'

theorem courses_tellStage {f : Unit → Run Bag} (line : LogLine)
    (h : ∀ t, Courses p options due data (f ()) t) (s : Session) :
    Courses p options due data (tellStage options line >>= f) s := by
  unfold tellStage
  split
  · exact (leads_tell [line] f s).courses (h _)
  · exact h s

/-- A schema that is to be logged and cannot be told ends a run. -/
theorem leads_tellSchema_error {f : Unit → Run Bag} (word : String)
    {schema : Graph → Except Fault Schema} {fault : Fault}
    (hschemas : options.settings.schemas = true) (h : schema s.graph = .error fault) :
    Leads (tellSchema options word schema >>= f) s (stop (.fault fault)) s := by
  unfold tellSchema
  rw [if_pos hschemas, bind_assoc]
  refine (leads_graph _ s).trans ?_
  rw [bind_assoc]
  exact leads_lift_error h

theorem courses_tellSchema {f : Unit → Run Bag} (word : String)
    (h : ∀ t, Courses p options due data (f ()) t) (s : Session) :
    Courses p options due data
      (tellSchema options word (fun g => observedData g data.entries) >>= f) s := by
  by_cases hschemas : options.settings.schemas = true
  · cases hobserved : observedData s.graph data.entries with
    | ok schema =>
        unfold tellSchema
        rw [if_pos hschemas, bind_assoc]
        refine (leads_graph _ s).courses ?_
        rw [bind_assoc]
        exact ((leads_lift hobserved).trans (leads_tell _ f s)).courses (h _)
    | error fault =>
        -- the schema is that of the data that is passed on, so this is an excuse
        have hexcuse : Excuse p options data.entries s.graph := by
          rcases observedData_error hobserved with hdata | hdata
          · exact .unobserved hschemas hdata
          · exact .screened hschemas hdata
        exact (leads_tellSchema_error word hschemas hobserved).courses (.excused fault hexcuse)
  · unfold tellSchema
    rw [if_neg hschemas]
    exact h s

/-- The fit of a member, once its parameters are read. -/
theorem courses_callFit {f : Unit → Run Bag} {parameters : Value} {i : Nat} {m : Member}
    {given : Bag} (hgiven : parametersFor s.graph parameters.orEmpty m.name = .ok given)
    (h : ∀ t, Courses (.fit parameters) options due data (f ()) t) :
    Courses (.fit parameters) options (Passage.fitDue i m ++ due) data
      (callFit i m.stage (.bag data) (.bag given) >>= f) s := by
  unfold callFit Passage.fitDue
  cases m.stage.fit with
  | none => exact h s
  | some fit =>
      have hmade : (Due.fit i m.name fit).Made (.fit parameters) data
          (.fit i (fit (.bag data) (.bag given)) (s.record i .fit)) := .fit rfl hgiven
      show Course _ _ (.fit i m.name fit :: due) data
        ((enterFit i (fit (.bag data) (.bag given)) (f ())).entered s)
        ((enterFit i (fit (.bag data) (.bag given)) (f ())).run s).1
        ((enterFit i (fit (.bag data) (.bag given)) (f ())).run s).2
      simp only [entered, run]
      rcases hlogic : (fit (.bag data) (.bag given)).run i (s.record i .fit) with ⟨e | _, t⟩
      · exact .failed due t hmade (by rw [Entered.error?, hlogic]; rfl)
      · exact .call hmade (by rw [Entered.error?, hlogic]; rfl) (h t)

theorem courses_callTransform {f : Bag → Run Bag} {i : Nat} {stage : Stage}
    (h : ∀ out t, Courses p options due out (f out) t) (s : Session) :
    Courses p options (.transform i stage.transform :: due) data
      (callTransform i stage data.entries >>= f) s := by
  unfold callTransform
  have hmade : (Due.transform i stage.transform).Made p data
      (.transform i (stage.transform { entries := data.entries }) (s.record i .transform)) :=
    .transform
  show Course _ _ (.transform i stage.transform :: due) data
    ((enterTransform i (stage.transform { entries := data.entries }) f).entered s)
    ((enterTransform i (stage.transform { entries := data.entries }) f).run s).1
    ((enterTransform i (stage.transform { entries := data.entries }) f).run s).2
  simp only [entered, run]
  rcases hlogic : (stage.transform { entries := data.entries }).run i (s.record i .transform) with
    ⟨e | out, t⟩
  · exact .failed due t hmade (by rw [Entered.error?, hlogic]; rfl)
  · refine .call hmade (by rw [Entered.error?, hlogic]; rfl) ?_
    rw [Entered.passes, hlogic]
    exact h out t

theorem courses_transformLogged {f : Bag → Run Bag} {i : Nat} {stage : Stage} (name : String)
    (h : ∀ out t, Courses p options due out (f out) t) (s : Session) :
    Courses p options (.transform i stage.transform :: due) data
      (transformLogged options i name stage data.entries >>= f) s := by
  unfold transformLogged
  rw [bind_assoc]
  refine courses_tellSchema _ (fun t => ?_) s
  rw [bind_assoc]
  refine courses_callTransform (fun out u => ?_) t
  rw [bind_assoc]
  refine courses_tellStage _ (fun u => ?_) u
  rw [bind_assoc]
  exact courses_tellSchema _ (fun u => h out u) u

/-- **Fitting a row takes the course of its members.** -/
theorem courses_fitFrom (options : RunOptions) (parameters : Value) (count : Nat) :
    ∀ (ms : List (Nat × Member)) (k : Nat) (data : Bag) (s : Session),
      Courses (.fit parameters) options ((Passage.fit parameters).due ms) data
        (fitFrom options parameters.orEmpty count k ms data) s
  | [], _, data, s => .done data s
  | (i, m) :: ms, k, data, s => by
      have hdue : (Passage.fit parameters).due ((i, m) :: ms) = Passage.fitDue i m ++
          .transform i m.stage.transform :: (Passage.fit parameters).due ms := by
        rw [Passage.due, List.flatMap_cons, List.append_assoc]
        rfl
      rw [hdue, fitFrom]
      refine courses_tellStage _ (fun t => ?_) s
      refine (leads_graph _ t).courses ?_
      cases hgiven : parametersFor t.graph parameters.orEmpty m.name with
      | error fault =>
          have hunread : ¬ t.graph.Handed parameters := fun hhanded => by
            obtain ⟨given, hread⟩ := hhanded.parametersFor m.name
            rw [hread] at hgiven
            cases hgiven
          exact (leads_lift_error rfl).courses (Course.excused fault (.unread rfl hunread))
      | ok given =>
          refine (leads_lift rfl).courses (courses_callFit hgiven fun u => ?_)
          refine courses_transformLogged _ (fun out w => ?_) u
          exact courses_tellStage _ (courses_fitFrom options parameters count ms (k + 1) out) w

/-- **Transforming through a row takes the course of its members.** -/
theorem courses_transformFrom (options : RunOptions) (count : Nat) :
    ∀ (ms : List (Nat × Member)) (k : Nat) (data : Bag) (s : Session),
      Courses .transform options (Passage.transform.due ms) data
        (transformFrom options count k ms data) s
  | [], _, data, s => .done data s
  | (i, m) :: ms, k, data, s => by
      rw [transformFrom]
      refine courses_tellStage _ (fun t => ?_) s
      exact courses_transformLogged _ (courses_transformFrom options count ms (k + 1)) t

end Run

end SchemaFlow
