import SchemaFlow.Proofs.Chain.Verdicts
import SchemaFlow.Proofs.Observation.Conformance

/-!
# What the static check promises of runs

A chain that is checked against the types of a schema is checked against every payload that conforms
to the schema, and against everything that stages which keep to their contracts make of it
(`Chain.checkStatic_sound`). The invariant of a run is that the payload at hand meets the types that
the static check has at hand (`Meets`): a faithful stage keeps it (`Meets.effectOn`), and where it
holds a demand that the types meet is met by the payload (`Meets.conforms`). That a run is sound
follows from such an invariant alone (`Walk.sound_of_invariant`).
-/

namespace SchemaFlow

/-! ## 1. Stages that keep to their contracts -/

/-- The new value under a name is one that the production of the name allows, given the old one. -/
inductive Follows (g : Graph) : Production → Value → Value → Prop
  | type {t : TypeSpec} {old new : Value} : g.Conforms t new → Follows g (.type t) old new
  | set {t : TypeSpec} {old new : Value} : g.Conforms t new → Follows g (.set t) old new
  | drop {old : Value} : Follows g .drop old .absent
  /-- a modified value is a plain object, which keeps the fields that are not mentioned -/
  | modify {fields : List (String × Production)} {old new : Value} : g.looksRecord new = true →
      (∀ name, Entries.find? fields name = none → (g.fieldAt old name).isAbsent = false →
        g.fieldAt new name = g.fieldAt old name) →
      (∀ name p, Entries.find? fields name = some p →
        Follows g p (g.fieldAt old name) (g.fieldAt new name)) →
      Follows g (.modify fields) old new

/-- The step from one payload to the next keeps to what a stage declares to produce. -/
structure Faithful (g : Graph) (ps : Produced) (old new : Entries Value) : Prop where
  kept : ∀ key, ps.find? key = none → valueAt new key = valueAt old key
  followed : ∀ key p, ps.find? key = some p → Follows g p (valueAt old key) (valueAt new key)

/-- A run along a row of stages: `d i` is the payload that the first `i` stages leave. -/
structure FaithfulRun (g : Graph) (ls : List (String × Contract)) (d : Nat → Entries Value) :
    Prop where
  tame : ∀ i ≤ ls.length, ∀ e ∈ d i, g.Tame e.2
  faithful : ∀ i stage c, ls[i]? = some (stage, c) → Faithful g c.produced (d i) (d (i + 1))

theorem FaithfulRun.tail {g : Graph} {l : String × Contract} {ls : List (String × Contract)}
    {d : Nat → Entries Value} (h : FaithfulRun g (l :: ls) d) :
    FaithfulRun g ls fun i => d (i + 1) where
  tame i hi := h.tame (i + 1) (Nat.succ_le_succ hi)
  faithful i stage c hi := h.faithful (i + 1) stage c hi

/-! ## 2. One production -/

variable {g : Graph}

/-- What is known of a value: the type, if there is one, that it conforms to. -/
def Known (g : Graph) (known : Option TypeSpec) (v : Value) : Prop :=
  ∀ t, known = some t → t.WellFormed ∧ g.Conforms t v

/-- What may be demanded where the type is known may be demanded of the value. -/
def Backed (g : Graph) (known : Option TypeSpec) (v : Value) : Prop :=
  ∀ t, known = some t → ∀ demanded : TypeSpec, demanded.WellFormed →
    demanded.isCompatible t = true → g.Conforms demanded v

theorem backed_none (g : Graph) (v : Value) : Backed g none v := fun _ h => by cases h

theorem Graph.Conforms.backed {t : TypeSpec} {v : Value} (h : g.Conforms t v)
    (hv : g.Observable v) : Backed g (some t) v := by
  intro u hu demanded hwf hcompatible
  obtain rfl := Option.some.inj hu
  exact h.weaken hwf hcompatible hv

theorem Known.backed {known : Option TypeSpec} {v : Value} (h : Known g known v)
    (hv : g.Observable v) : Backed g known v := by
  intro t ht
  exact (h t ht).2.backed hv t rfl

/-- What may be demanded of a value may be demanded of its fields. -/
theorem Backed.fieldAt (hg : g.NamesDistinct) {known : Option TypeSpec} {v : Value} (hv : g.Tame v)
    (h : Backed g known v) {name : String} (hname : ProperName name) :
    Backed g ((Production.recordFields known).find? name) (g.fieldAt v name) := by
  intro u hu demanded hwf hcompatible
  cases known with
  | none => cases hu
  | some t =>
      cases t with
      | record fs ancestor =>
          -- the demand on the field is one on the record
          have hone : Schema.WellFormed [(name, demanded)] := Schema.WellFormed.nil.insert hname hwf
          have hrecord : g.Conforms (.record [(name, demanded)] none) v :=
            h _ rfl _ (TypeSpec.wellFormed_record_iff.2 hone) (TypeSpec.isCompatible_record_iff.2
              ⟨fs, ancestor, rfl, by simpa using ⟨u, hu, hcompatible⟩⟩)
          exact (conforms_record_iff hg hv (looksRecord_of_conforms hv.observable hrecord) hone).1
            hrecord name demanded (by simp [Entries.find?_cons])
      | _ => cases hu

/-- A modified value backs what a modification leaves of a record: the fields that it keeps back
    what was known of them, and the others what their productions leave. -/
theorem backed_applyFields (hg : g.NamesDistinct) {fields : Produced} (hfields : fields.WellFormed)
    {fs : Schema} {new : Value} (hnew : g.Tame new) (hrecord : g.looksRecord new = true)
    (hkept : ∀ name, ProperName name → fields.find? name = none →
      Backed g (fs.find? name) (g.fieldAt new name))
    (hfollowed : ∀ name p, fields.find? name = some p →
      Backed g (p.apply (fs.find? name)) (g.fieldAt new name)) :
    Backed g (some (.record (Production.applyFields fields fs) none)) new := by
  intro t ht demanded hwf hcompatible
  obtain rfl := Option.some.inj ht
  obtain ⟨ds, ancestor, rfl⟩ := TypeSpec.record_of_isCompatible hcompatible
  obtain ⟨_, _, hsame, hds⟩ := TypeSpec.isCompatible_record_iff.1 hcompatible
  obtain ⟨rfl, rfl⟩ := TypeSpec.record.inj hsame
  refine (conforms_record_iff hg hnew hrecord hwf.fields).2 fun name d hd => ?_
  obtain ⟨hname, hdwf⟩ := hwf.fields.find? hd
  obtain ⟨u, hu, hdu⟩ := hds _ (Entries.mem_of_find? hd)
  cases hmention : Entries.find? fields name with
  | none =>
      rw [Production.find?_applyFields_none hfields.distinct hmention] at hu
      exact hkept name hname hmention u hu d hdwf hdu
  | some p =>
      rw [Production.find?_applyFields_some hfields.distinct hmention] at hu
      exact hfollowed name p hmention u hu d hdwf hdu

/-- **What follows a production backs the type that the production gives.** -/
theorem Follows.backed (hg : g.NamesDistinct) {p : Production} {old new : Value}
    (h : Follows g p old new) : p.WellFormed → g.Tame old → g.Tame new →
      ∀ {known : Option TypeSpec}, Backed g known old → Backed g (p.apply known) new := by
  induction h with
  | type hconforms => exact fun _ _ hnew _ _ => hconforms.backed hnew.observable
  | set hconforms => exact fun _ _ hnew _ _ => hconforms.backed hnew.observable
  | drop => exact fun _ _ _ _ _ => backed_none g _
  | @modify fields old new hrecord hkept _ ih =>
      intro hp hold hnew known hknown
      refine backed_applyFields hg hp.fields hnew hrecord (fun name hname hmention => ?_)
        (fun name p hmention => ?_)
      · intro u hu demanded hwf hcompatible
        have hfield := hknown.fieldAt hg hold hname u hu demanded hwf hcompatible
        rw [hkept name hmention hfield.1]
        exact hfield
      · obtain ⟨hname, hpw⟩ := hp.fields.find? hmention
        exact ih name p hmention hpw (hold.fieldAt name) (hnew.fieldAt name)
          (hknown.fieldAt hg hold hname)

/-- **What follows a production conforms to the type that the production gives.** -/
theorem Follows.known (hg : g.NamesDistinct) {p : Production} {old new : Value}
    (h : Follows g p old new) (hp : p.WellFormed) (hold : g.Tame old) (hnew : g.Tame new)
    {known : Option TypeSpec} (hknown : Known g known old) : Known g (p.apply known) new := by
  intro t ht
  have hwf : t.WellFormed := hp.apply (fun u hu => (hknown u hu).1) t ht
  exact ⟨hwf, h.backed hg hp hold hnew (hknown.backed hold.observable) t ht t hwf
    (TypeSpec.isCompatible_self hwf)⟩

/-! ## 3. The invariant of a run -/

/-- A stage that finds what it demands in one table finds it in another one that meets the demands
    that the first one meets. -/
theorem checkSchema_of_check {pass : Pass} (hphase : pass.phase = .transform) {stage : String}
    {c : Contract} (hc : c.WellFormed) {working data : Entries Value}
    (hcheck : pass.check g stage c working = .ok [])
    (hmeets : ∀ key (demanded : TypeSpec), demanded.WellFormed →
      g.Conforms demanded (valueAt working key) → g.Conforms demanded (valueAt data key))
    (label : Option String) (heading : Heading) :
    checkSchema g label heading data c.transformRequires = .ok [] := by
  obtain ⟨input, hinput, happend⟩ := Pass.check_eq_ok.1 hcheck
  obtain ⟨rfl, _⟩ := List.append_eq_nil_iff.1 happend.symm
  rw [hphase] at hinput
  have hdemands : ∀ e ∈ c.transformRequires, g.Conforms e.2 (valueAt working e.1) :=
    fun e he => verdict_none_iff.1 (checkSchema_eq_nil_iff.1 hinput e he)
  exact checkSchema_eq_nil_iff.2 fun e he => verdict_none_iff.2
    (hmeets e.1 e.2 (hc.transformRequires.types e he) (hdemands e he))

/-- A fitted stage that finds what it demands finds nothing wrong. -/
theorem checkTransform_of_demands {c : Contract} {label : Option String} {data : Entries Value}
    (h : checkSchema g label (.slot .transformRequires) data c.transformRequires = .ok []) :
    c.checkTransform g label data true = .ok [] := by
  unfold Contract.checkTransform
  rw [Step.bind_of_ok h]
  rfl

/-- A payload meets a table of types: under every name of the table it has a value that conforms. -/
def Meets (g : Graph) (working data : Entries Value) : Prop :=
  ∀ key v, working.find? key = some v →
    ∃ t : TypeSpec, v = .type t ∧ t.WellFormed ∧ g.Conforms t (valueAt data key)

namespace Meets

variable {working data : Entries Value}

theorem readable (h : Meets g working data) : g.ReadableTable working := by
  intro key v hv
  obtain ⟨t, rfl, _⟩ := h key v hv
  exact g.readable_type t

theorem known (h : Meets g working data) (key : String) :
    Known g (g.standsFor (valueAt working key)) (valueAt data key) := by
  intro t ht
  cases hv : working.find? key with
  | none =>
      rw [valueAt_of_find?_none hv] at ht
      cases ht
  | some v =>
      obtain ⟨u, rfl, hu⟩ := h key v hv
      rw [valueAt_of_find? hv, g.standsFor_type] at ht
      obtain rfl := Option.some.inj ht
      exact hu

/-- A payload that conforms to a schema meets its types. -/
theorem of_checkSchema {s : Schema} (hs : ∀ e ∈ s, e.2.WellFormed) {stage : Option String}
    {heading : Heading} (h : checkSchema g stage heading data s = .ok []) :
    Meets g (typed s) data := by
  intro key v hv
  rw [find?_typed] at hv
  obtain ⟨t, ht, rfl⟩ := Option.map_eq_some_iff.1 hv
  have hmem := Entries.mem_of_find? ht
  exact ⟨t, rfl, hs _ hmem, verdict_none_iff.1 (checkSchema_eq_nil_iff.1 h _ hmem)⟩

/-- **A faithful stage keeps the invariant.** -/
theorem effectOn (hg : g.NamesDistinct) (h : Meets g working data) {ps : Produced}
    (hps : ps.WellFormed) {new working' : Entries Value} (hstep : Faithful g ps data new)
    (hdata : ∀ key, g.Tame (valueAt data key)) (hnew : ∀ key, g.Tame (valueAt new key))
    (hworking : effectOn g ps working = .ok working') : Meets g working' new := by
  intro key v hv
  rw [find?_effectOn hps.distinct h.readable hworking key] at hv
  cases hp : ps.find? key with
  | none =>
      rw [hp] at hv
      rw [hstep.kept key hp]
      exact h key v hv
  | some p =>
      rw [hp] at hv
      obtain ⟨t, ht, rfl⟩ := Option.map_eq_some_iff.1 hv
      exact ⟨t, rfl, (hstep.followed key p hp).known hg (hps.find? hp).2 (hdata key) (hnew key)
        (h.known key) t ht⟩

/-- A demand that the type under a name meets is met by the payload. -/
theorem conforms (h : Meets g working data) {key : String} {demanded : TypeSpec}
    (hwf : demanded.WellFormed) (hdata : g.Observable (valueAt data key))
    (hmet : g.Conforms demanded (valueAt working key)) :
    g.Conforms demanded (valueAt data key) := by
  cases hv : working.find? key with
  | none =>
      rw [valueAt_of_find?_none hv] at hmet
      cases hmet.1
  | some v =>
      obtain ⟨t, rfl, _, hconforms⟩ := h key v hv
      rw [valueAt_of_find? hv] at hmet
      exact hconforms.weaken hwf (Graph.conforms_type_iff.1 hmet) hdata

/-- What a stage demands of the types and finds there is there in the payload. -/
theorem demands (h : Meets g working data) {pass : Pass} (hphase : pass.phase = .transform)
    {stage : String} {c : Contract} (hc : c.WellFormed)
    (hdata : ∀ key, g.Observable (valueAt data key)) (hstatic : pass.check g stage c working = .ok [])
    (label : Option String) (heading : Heading) :
    checkSchema g label heading data c.transformRequires = .ok [] :=
  checkSchema_of_check hphase hc hstatic (fun key _ hwf => h.conforms hwf (hdata key)) label heading

end Meets

/-! ## 4. Runs -/

/-- What the table of a check has to promise of the payload at hand: a faithful stage keeps it, and
    the payload meets the demands that the table meets. -/
structure RunInvariant (g : Graph)
    (inv : List (String × Contract) → Entries Value → Entries Value → Prop) : Prop where
  kept : ∀ {l : String × Contract} {ls : List (String × Contract)}
    {working data working' new : Entries Value}, l.2.WellFormed → inv (l :: ls) working data →
    Faithful g l.2.produced data new → (∀ key, g.Tame (valueAt data key)) →
    (∀ key, g.Tame (valueAt new key)) → effectOn g l.2.produced working = .ok working' →
    inv ls working' new
  meets : ∀ {ls : List (String × Contract)} {working data : Entries Value}, inv ls working data →
    (∀ key, g.Tame (valueAt data key)) → ∀ key (demanded : TypeSpec), demanded.WellFormed →
    g.Conforms demanded (valueAt working key) → g.Conforms demanded (valueAt data key)

/-- **Along a clean walk over the table every stage of a faithful run finds what it demands.** -/
theorem Walk.sound_of_invariant
    {inv : List (String × Contract) → Entries Value → Entries Value → Prop}
    (hinv : RunInvariant g inv) {pass : Pass} (hphase : pass.phase = .transform)
    {ls : List (String × Contract)} {working last : Entries Value} {founds : List (List Violation)}
    (h : Walk g pass ls working founds last) : (∀ l ∈ ls, l.2.WellFormed) → founds.flatten = [] →
      ∀ {d : Nat → Entries Value}, FaithfulRun g ls d → inv ls working (d 0) →
      ∀ (i : Nat) (stage : String) (c : Contract), ls[i]? = some (stage, c) →
        ∀ label, c.checkTransform g label (d i) true = .ok [] := by
  induction h with
  | nil _ =>
      intro _ _ d _ _ i stage c hi
      simp at hi
  | @cons first c₀ rest working next last found later hcheck hnext _ ih =>
      intro hls hclean d hrun hstart
      obtain ⟨hc, hls⟩ := List.forall_mem_cons.1 hls
      rw [List.flatten_cons] at hclean
      obtain ⟨rfl, hclean⟩ := List.append_eq_nil_iff.1 hclean
      have htame : ∀ key, g.Tame (valueAt (d 0) key) :=
        Graph.tame_valueAt (hrun.tame 0 (Nat.zero_le _))
      have htame' : ∀ key, g.Tame (valueAt (d 1) key) :=
        Graph.tame_valueAt (hrun.tame 1 (Nat.succ_le_succ (Nat.zero_le _)))
      have hstep : Faithful g c₀.produced (d 0) (d 1) := hrun.faithful 0 first c₀ rfl
      have hnext' : inv rest next (d 1) := hinv.kept hc hstart hstep htame htame' hnext
      rintro (_ | i) stage c hi label
      · obtain ⟨rfl, rfl⟩ := Prod.mk.inj (Option.some.inj hi)
        exact checkTransform_of_demands
          (checkSchema_of_check hphase hc hcheck (hinv.meets hstart htame) label _)
      · exact ih hls hclean hrun.tail hnext' i stage c hi label

theorem Meets.runInvariant (hg : g.NamesDistinct) :
    RunInvariant g fun _ working data => Meets g working data where
  kept hl h hstep hdata hnew hworking := h.effectOn hg hl.produced hstep hdata hnew hworking
  meets h hdata key _ hwf := h.conforms hwf (hdata key).observable

/-- **Along a clean walk over types every stage of a faithful run finds what it demands.** -/
theorem Walk.sound (hg : g.NamesDistinct) {pass : Pass} (hphase : pass.phase = .transform)
    {ls : List (String × Contract)} {working last : Entries Value} {founds : List (List Violation)}
    (h : Walk g pass ls working founds last) (hls : ∀ l ∈ ls, l.2.WellFormed)
    (hclean : founds.flatten = []) {d : Nat → Entries Value} (hrun : FaithfulRun g ls d)
    (hstart : Meets g working (d 0)) :
    ∀ (i : Nat) (stage : String) (c : Contract), ls[i]? = some (stage, c) →
      ∀ label, c.checkTransform g label (d i) true = .ok [] :=
  h.sound_of_invariant (Meets.runInvariant hg) hphase hls hclean hrun hstart

/-- **The static check is sound.** Where it finds nothing wrong with a chain and the types of a
    schema, no stage finds anything wrong in a run that starts from a payload of these types and
    whose stages keep to their contracts. The leaves of a flat chain are its links. -/
theorem Chain.checkStatic_sound (hg : g.NamesDistinct) {chain : Chain} (hchain : chain.WellFormed)
    {s : Schema} (hs : ∀ e ∈ s, e.2.WellFormed)
    (hstatic : chain.checkStatic g (typed s) .transform = .ok [])
    {d : Nat → Entries Value} {owner : Option String} {heading : Heading}
    (hstart : checkSchema g owner heading (d 0) s = .ok [])
    (hrun : FaithfulRun g chain.leaves d) :
    ∀ (i : Nat) (stage : String) (c : Contract), chain.leaves[i]? = some (stage, c) →
      ∀ label, c.checkTransform g label (d i) true = .ok [] := by
  obtain ⟨founds, last, hwalk, hclean⟩ := Chain.walk_of_pass hstatic
  have hls : ∀ l ∈ chain.leaves, l.2.WellFormed := fun _ hl => hchain.of_mem_leaves hl
  exact hwalk.sound hg rfl hls hclean.symm hrun (.of_checkSchema hs hstart)

/-! ## 5. A run of two stages -/

/-- Two rows: one as it comes in, and one as it is after a stage has marked it. -/
def Graph.rowsSample : Graph :=
  ⟨#[.object .plain [("id", .text "a"), ("size", .text "large")],
    .object .plain [("id", .text "a"), ("seen", .bool true)]]⟩

/-- A stage that edits a row, takes a name out and gives a new one. -/
def Contract.marking : Contract where
  transformRequires := [("row", .record [("id", .scalar .string)] none)]
  produced := [("row", .modify [("seen", .set (.scalar .boolean)), ("size", .drop)]),
    ("raw", .drop), ("note", .type (.scalar .string))]

/-- A stage that reads what the edited row has kept and what it has got. -/
def Contract.reporting : Contract where
  transformRequires := [("note", .scalar .string),
    ("row", .record [("id", .scalar .string), ("seen", .scalar .boolean)] none)]

def Chain.rowsSample : Chain := ⟨[("mark", .stage .marking), ("report", .stage .reporting)]⟩

/-- What the sample starts from. -/
def rowsSchema : Schema :=
  [("row", .record [("id", .scalar .string), ("size", .scalar .string)] none),
    ("raw", .scalar .string)]

/-- What is known between the stages of the sample. -/
def rowsBetween : Schema :=
  [("row", .record [("id", .scalar .string), ("seen", .scalar .boolean)] none),
    ("note", .scalar .string)]

/-- The payloads of a run of the sample. -/
def rowsRun : Nat → Entries Value
  | 0 => [("row", .node 0), ("raw", .text "x")]
  | _ + 1 => [("row", .node 1), ("note", .text "done")]

theorem Graph.rowsSample_distinct : rowsSample.NamesDistinct := by
  rintro (_ | _ | id) lineage entries h
  · cases h
    decide
  · cases h
    decide
  · cases h

theorem Graph.rowsSample_old : rowsSample.Row 0 [("id", .text "a"), ("size", .text "large")] where
  node := rfl
  undescribed := rfl
  primitive := by simp [Value.isContainer]
  typeless := by simp
  observed := by simp [leafType, ProperName, ancestorName]

theorem Graph.rowsSample_new : rowsSample.Row 1 [("id", .text "a"), ("seen", .bool true)] where
  node := rfl
  undescribed := rfl
  primitive := by simp [Value.isContainer]
  typeless := by simp
  observed := by simp [leafType, ProperName, ancestorName]

theorem Chain.rowsSample_clean :
    rowsSample.checkStatic Graph.rowsSample (typed rowsSchema) .transform = .ok [] := by
  have hmark : ({ phase := .transform } : Pass).check Graph.rowsSample "mark" .marking
      (typed rowsSchema) = .ok [] := by
    simp only [Pass.check, Contract.checkTransform, typed, rowsSchema, List.map_cons, List.map_nil,
      Contract.marking, checkSchema, checkKey, Entries.find?, if_true, Option.getD_some,
      Graph.observe_type]
    rfl
  have hbetween : effectOn Graph.rowsSample Contract.marking.produced (typed rowsSchema) =
      .ok (typed rowsBetween) := by
    simp only [Contract.marking, typed, rowsSchema, List.map_cons, List.map_nil, effectOn,
      Production.applyTo, Graph.fieldsOf, Entries.find?, if_true, Option.getD_some,
      Graph.observe_type]
    rfl
  have hreport : ({ phase := .transform } : Pass).check Graph.rowsSample "report" .reporting
      (typed rowsBetween) = .ok [] := by
    simp only [Pass.check, Contract.checkTransform, typed, rowsBetween, List.map_cons, List.map_nil,
      Contract.reporting, checkSchema, checkKey, Entries.find?, String.reduceEq, if_true, if_false,
      Option.getD_some, Graph.observe_type]
    rfl
  exact Chain.violations_of_walk (c := rowsSample)
    (.cons hmark hbetween (.cons hreport rfl (.nil _)))

theorem rowsRun_marked :
    Faithful Graph.rowsSample Contract.marking.produced (rowsRun 0) (rowsRun 1) where
  kept key hkey := by
    simp only [Contract.marking, Entries.find?_cons] at hkey
    simp only [rowsRun, valueAt, Entries.find?_cons]
    grind
  followed key p hkey := by
    have hmem := Entries.mem_of_find? hkey
    simp only [Contract.marking, List.mem_cons, Prod.mk.injEq, List.not_mem_nil, or_false] at hmem
    rcases hmem with ⟨rfl, rfl⟩ | ⟨rfl, rfl⟩ | ⟨rfl, rfl⟩
    · have hold : valueAt (rowsRun 0) "row" = .node 0 := rfl
      have hnew : valueAt (rowsRun 1) "row" = .node 1 := rfl
      rw [hold, hnew]
      refine .modify Graph.rowsSample_new.looksRecord (fun name hname hpresent => ?_)
        (fun name p hname => ?_)
      · rw [Graph.rowsSample_old.fieldAt] at hpresent ⊢
        rw [Graph.rowsSample_new.fieldAt]
        simp only [Entries.find?_cons] at hname
        simp only [valueAt, Entries.find?_cons] at hpresent ⊢
        grind [Value.isAbsent]
      · have hmem := Entries.mem_of_find? hname
        simp only [List.mem_cons, Prod.mk.injEq, List.not_mem_nil, or_false] at hmem
        rcases hmem with ⟨rfl, rfl⟩ | ⟨rfl, rfl⟩
        · rw [Graph.rowsSample_new.fieldAt]
          exact .set (Graph.conforms_leaf rfl rfl rfl rfl)
        · rw [Graph.rowsSample_new.fieldAt]
          exact .drop
    · exact .drop
    · exact .type (Graph.conforms_leaf rfl rfl rfl rfl)

theorem rowsRun_faithful : FaithfulRun Graph.rowsSample Chain.rowsSample.leaves rowsRun where
  tame i _ e he := by
    cases i with
    | zero =>
        simp only [rowsRun, List.mem_cons, List.not_mem_nil, or_false] at he
        rcases he with rfl | rfl
        · exact Graph.rowsSample_old.tame
        · exact Graph.tame_leaf rfl (by simp) ⟨_, rfl⟩
    | succ i =>
        simp only [rowsRun, List.mem_cons, List.not_mem_nil, or_false] at he
        rcases he with rfl | rfl
        · exact Graph.rowsSample_new.tame
        · exact Graph.tame_leaf rfl (by simp) ⟨_, rfl⟩
  faithful i stage c hi := by
    match i, hi with
    | 0, hi =>
        obtain ⟨rfl, rfl⟩ := Prod.mk.inj (Option.some.inj hi)
        exact rowsRun_marked
    | 1, hi =>
        obtain ⟨rfl, rfl⟩ := Prod.mk.inj (Option.some.inj hi)
        exact ⟨fun _ _ => rfl, fun _ _ h => by cases h⟩
    | i + 2, hi => cases hi

/-- The sample on a run in which the first stage marks the row. -/
theorem Chain.checkStatic_sound_rows :
    rowsSample.checkStatic Graph.rowsSample (typed rowsSchema) .transform = .ok [] ∧
      checkSchema Graph.rowsSample none (.slot .transformRequires) (rowsRun 0) rowsSchema = .ok [] ∧
      FaithfulRun Graph.rowsSample rowsSample.leaves rowsRun ∧
      Contract.marking.checkTransform Graph.rowsSample (some "mark") (rowsRun 0) true = .ok [] ∧
      Contract.reporting.checkTransform Graph.rowsSample (some "report") (rowsRun 1) true =
        .ok [] := by
  have hchain : rowsSample.WellFormed := by decide
  have hschema : ∀ e ∈ rowsSchema, e.2.WellFormed := by decide
  have hrow : Graph.rowsSample.Conforms
      (.record [("id", .scalar .string), ("size", .scalar .string)] none) (.node 0) :=
    ⟨rfl, _, (Graph.rowsSample_old.observeAt _).trans rfl, rfl⟩
  have hraw : Graph.rowsSample.Conforms (.scalar .string) (.text "x") :=
    Graph.conforms_leaf rfl rfl rfl rfl
  have hstart : checkSchema Graph.rowsSample none (.slot .transformRequires) (rowsRun 0)
      rowsSchema = .ok [] := by
    refine checkSchema_eq_nil_iff.2 ?_
    simp only [rowsSchema, List.forall_mem_cons, verdict_none_iff]
    exact ⟨hrow, hraw, fun _ h => absurd h List.not_mem_nil⟩
  have hsound := Chain.checkStatic_sound Graph.rowsSample_distinct hchain hschema rowsSample_clean
    hstart rowsRun_faithful
  exact ⟨rowsSample_clean, hstart, rowsRun_faithful, hsound 0 "mark" .marking rfl _,
    hsound 1 "report" .reporting rfl _⟩

end SchemaFlow
