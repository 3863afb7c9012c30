import SchemaFlow.Proofs.Contract.Check
import SchemaFlow.Proofs.Contract.WellFormed

/-!
# Parameters of a stage

A stage is given its parameters as a table, a plain object or a map. They suit the stage when each
entry that is there is declared and each declared parameter is there with a value that conforms
(`Contract.Takes`). A check says nothing under the heading of parameters exactly when they do
(`Contract.quiet_checkFit`).
-/

namespace SchemaFlow

/-! ## 1. Tables of parameters -/

namespace Graph

/-- The entries that a value lists as a table of parameters; none where it lists nothing. -/
def table (g : Graph) (v : Value) : Entries Value :=
  match g.payload v.orEmpty with
  | .ok entries => entries
  | .error _ => []

/-- A value that lists its entries under texts, each of them once. -/
structure Tabled (g : Graph) (v : Value) : Prop where
  listed : ∃ entries, g.payload v.orEmpty = .ok entries
  keyed : ∀ entries, g.mapEntries? v = some entries → ∀ e ∈ entries, ∃ name, e.1 = .text name
  distinct : (g.table v).Distinct

@[simp] theorem table_absent (g : Graph) : g.table .absent = [] := rfl

theorem tabled_absent (g : Graph) : g.Tabled .absent where
  listed := ⟨[], rfl⟩
  keyed _ h := by cases h
  distinct := Entries.distinct_nil

variable {g : Graph} {v : Value}

theorem Tabled.payload (h : g.Tabled v) : g.payload v.orEmpty = .ok (g.table v) := by
  obtain ⟨entries, hentries⟩ := h.listed
  unfold table
  rw [hentries]

/-- Entries as a check of parameters goes through them. -/
def textKeys (entries : Entries Value) : List (Value × Value) :=
  entries.map fun e => (.text e.1, e.2)

/-- The entries of a map under texts lose nothing when they are read as a table. -/
theorem textKeys_filterMap : ∀ {entries : List (Value × Value)},
    (∀ e ∈ entries, ∃ name, e.1 = .text name) →
      textKeys (entries.filterMap fun (k, v) => (keyText? k).map fun name => (name, v)) = entries
  | [], _ => rfl
  | (key, w) :: entries, h => by
      obtain ⟨⟨name, hname⟩, hentries⟩ := List.forall_mem_cons.1 h
      have ih := textKeys_filterMap hentries
      obtain rfl : key = .text name := hname
      exact congrArg ((Value.text name, w) :: ·) ih

theorem mapEntries?_orEmpty (g : Graph) (v : Value) : g.mapEntries? v.orEmpty = g.mapEntries? v := by
  cases v <;> rfl

theorem Tabled.parameterEntries (h : g.Tabled v) :
    g.parameterEntries v.orEmpty = .ok (textKeys (g.table v)) := by
  have hlisted := h.payload
  unfold Graph.payload at hlisted
  unfold Graph.parameterEntries
  rw [mapEntries?_orEmpty] at hlisted ⊢
  cases hmap : g.mapEntries? v with
  | some entries =>
      rw [hmap] at hlisted
      rw [← Except.ok.inj hlisted, textKeys_filterMap (h.keyed entries hmap)]
  | none =>
      rw [hmap] at hlisted
      dsimp only at hlisted ⊢
      rw [Step.bind_of_ok hlisted]
      rfl

end Graph

/-! ## 2. Parameters that are not declared -/

/-- Nothing is found about parameters. -/
def Quiet (found : List Violation) : Prop :=
  ∀ w ∈ found, w.finding.heading ≠ .slot .fitParameters

theorem quiet_append {found later : List Violation} :
    Quiet (found ++ later) ↔ Quiet found ∧ Quiet later := List.forall_mem_append

namespace Contract

variable {g : Graph} (c : Contract)

/-- **Nothing undeclared is found when every entry that is there is declared.** -/
theorem undeclared_eq_nil_iff (stage : Option String) : ∀ {entries : Entries Value},
    (∀ e ∈ entries, e.2.isAbsent = false → c.fitParameters.find? e.1 = none →
      ∃ t, g.observe none e.2 = .ok t) →
    ∃ vs, undeclared g c stage (Graph.textKeys entries) = .ok vs ∧
      (∀ w ∈ vs, w.finding.heading = .slot .fitParameters) ∧
      (vs = [] ↔ ∀ e ∈ entries, e.2.isAbsent = false → c.fitParameters.has e.1 = true)
  | [], _ => ⟨[], rfl, by simp, by simp⟩
  | (name, v) :: entries, h => by
      obtain ⟨hv, h⟩ := List.forall_mem_cons.1 h
      obtain ⟨vs, hvs, hheading, hnil⟩ := undeclared_eq_nil_iff stage h
      have hname : g.nameOfKey? (.text name) = .ok (some name) := by
        simp [Graph.nameOfKey?, Graph.textPart, Graph.textPartAt]
      have hshown : g.textPart (.text name) = .ok name := by
        simp [Graph.textPart, Graph.textPartAt]
      unfold Graph.textKeys at hvs ⊢
      rw [List.map_cons, undeclared]
      cases habsent : v.isAbsent with
      | true =>
          refine ⟨vs, hvs, hheading, ?_⟩
          simp [habsent, hnil]
      | false =>
          rw [Step.bind_of_ok hname]
          cases hhas : c.fitParameters.has name with
          | true =>
              refine ⟨vs, ?_, hheading, ?_⟩
              · simpa [hhas] using hvs
              · simp [hhas, hnil]
          | false =>
              obtain ⟨t, ht⟩ := hv habsent (Entries.has_eq_false_iff.1 hhas)
              refine ⟨⟨stage, .undeclared name (placeOf (.text name) name) t
                c.fitParameters.names⟩ :: vs, ?_, ?_, ?_⟩
              · simp only [Bool.false_eq_true, if_false, Option.map_some, hhas, Option.getD_some]
                rw [Step.bind_of_ok ht, Step.bind_of_ok hshown, Step.bind_of_ok hvs]
              · exact List.forall_mem_cons.2 ⟨rfl, hheading⟩
              · simp [habsent, hhas]

/-! ## 3. All parameters of a stage -/

/-- Parameters suit a stage: what is there is declared, and what is declared is there and conforms. -/
structure Takes (g : Graph) (c : Contract) (entries : Entries Value) : Prop where
  declared : ∀ e ∈ entries, e.2.isAbsent = false → c.fitParameters.has e.1 = true
  supplied : ∀ e ∈ c.fitParameters, g.Conforms e.2 (valueAt entries e.1)

/-- Each parameter that is there can be observed, under its declared type where it has one. -/
def Observes (g : Graph) (c : Contract) (entries : Entries Value) : Prop :=
  ∀ e ∈ entries, e.2.isAbsent = false → ∃ t, g.observe (c.fitParameters.find? e.1) e.2 = .ok t

/-- An absent value is observed whatever is expected. -/
theorem observe_of_isAbsent {v : Value} (h : v.isAbsent = true) (hint : Option TypeSpec) :
    ∃ t, g.observe hint v = .ok t := by
  cases v with
  | absent => exact ⟨.handle "undefined", by simp [Graph.observe, Graph.observeAt, leafType]⟩
  | _ => cases h

variable {c}

theorem Observes.declared {entries : Entries Value} (h : c.Observes g entries)
    (hc : c.fitParameters.Distinct) {e : String × TypeSpec} (he : e ∈ c.fitParameters) {v : Value}
    (hv : Entries.find? entries e.1 = some v) : ∃ t, g.observe (some e.2) v = .ok t := by
  cases habsent : v.isAbsent with
  | true => exact observe_of_isAbsent habsent _
  | false =>
      have hseen := h (e.1, v) (Entries.mem_of_find? hv) habsent
      rwa [hc.find?_of_mem he] at hseen

/-- **A check of a stage says nothing of its parameters exactly when they suit it.** -/
theorem quiet_checkFit (hc : c.WellFormed) {data : Entries Value}
    (hdata : ∀ e ∈ c.fitRequires, ∀ v, data.find? e.1 = some v →
      ∃ t, g.observe (some e.2) v = .ok t)
    {own v : Value} (hown : g.payload own.orEmpty = .ok (g.table v))
    (hentries : g.parameterEntries own.orEmpty = .ok (Graph.textKeys (g.table v)))
    (hobserves : c.Observes g (g.table v)) (stage : Option String) :
    ∃ vs, c.checkFit g stage data own = .ok vs ∧
      (Quiet vs ↔ c.Takes g (g.table v)) := by
  obtain ⟨input, hinput⟩ := checkSchema_returns_of_observed stage (.slot .fitRequires) hdata
  obtain ⟨declared, hdeclared⟩ := checkSchema_returns_of_observed stage (.slot .fitParameters)
    fun e he w hw => hobserves.declared hc.fitParameters.distinct he hw
  obtain ⟨others, hothers, hheading, hnil⟩ :=
    c.undeclared_eq_nil_iff stage fun e he habsent hnone => hnone ▸ hobserves e he habsent
  refine ⟨input ++ declared ++ others, ?_, ?_⟩
  · unfold checkFit
    rw [Step.bind_of_ok hinput, Step.bind_of_ok hown, Step.bind_of_ok hdeclared,
      Step.bind_of_ok hentries, Step.bind_of_ok hothers]
  have hsupplied : declared = [] ↔
      ∀ e ∈ c.fitParameters, g.Conforms e.2 (valueAt (g.table v) e.1) := by
    rw [← Except.ok.injEq declared [], ← hdeclared, checkSchema_eq_nil_iff]
    exact forall₂_congr fun e _ => verdict_none_iff
  have hquiet : Quiet input := by
    intro w hw hsame
    rw [(mem_checkSchema hinput w hw).2.1] at hsame
    cases hsame
  constructor
  · intro h
    have hnone : ∀ {ws : List Violation}, (∀ w ∈ ws, w ∈ input ++ declared ++ others) →
        (∀ w ∈ ws, w.finding.heading = .slot .fitParameters) → ws = [] := fun hsub hall =>
      List.eq_nil_iff_forall_not_mem.2 fun w hw => h w (hsub w hw) (hall w hw)
    refine ⟨hnil.1 (hnone (fun w hw => by simp [hw]) hheading), hsupplied.1 (hnone ?_ ?_)⟩
    · exact fun w hw => by simp [hw]
    · exact fun w hw => (mem_checkSchema hdeclared w hw).2.1
  · intro h w hw
    rw [hnil.2 h.declared, hsupplied.2 h.supplied, List.append_nil, List.append_nil] at hw
    exact hquiet w hw

end Contract

end SchemaFlow
