import SchemaFlow.Proofs.Chain.Approval

/-!
# Knowing more of the input

A static check that knows more of the input finds no fault that it did not find before. Two walks go
along the same stages, one over the types of a schema and one over types that may stand for them;
behind every stage the latter may still stand for the former (`Sharper.effectOn`), since a production
never loses what is known. So where a stage finds what it demands in the coarser table it finds it in
the sharper one (`Sharper.conforms`).

* `Walk.sharpened`: whatever the sharper walk finds is found at the same place by the coarser one.
* `Chain.checkStatic_sharpened`: the same of the static check of a chain.
-/

namespace SchemaFlow

/-! ## 1. Places -/

/-- Two violations of one stage, under one heading and about one name. -/
structure Violation.SamePlace (v w : Violation) : Prop where
  stage : v.stage = w.stage
  heading : v.finding.heading = w.finding.heading
  key : v.finding.key? = w.finding.key?

theorem Violation.SamePlace.refl (v : Violation) : v.SamePlace v := ⟨rfl, rfl, rfl⟩

/-- Whatever is found in one list of violations is found at the same place in another one. -/
def FoundIn (ws vs : List Violation) : Prop := ∀ w ∈ ws, ∃ v ∈ vs, v.SamePlace w

namespace FoundIn

variable {vs vs' ws ws' : List Violation}

theorem refl (vs : List Violation) : FoundIn vs vs := fun v hv => ⟨v, hv, .refl v⟩

theorem append (h : FoundIn ws vs) (h' : FoundIn ws' vs') : FoundIn (ws ++ ws') (vs ++ vs') := by
  intro w hw
  rcases List.mem_append.1 hw with hw | hw
  · obtain ⟨v, hv, hplace⟩ := h w hw
    exact ⟨v, List.mem_append_left _ hv, hplace⟩
  · obtain ⟨v, hv, hplace⟩ := h' w hw
    exact ⟨v, List.mem_append_right _ hv, hplace⟩

/-- Where nothing is found in the one nothing is found in the other. -/
theorem eq_nil (h : FoundIn ws []) : ws = [] := by
  refine List.eq_nil_iff_forall_not_mem.2 fun w hw => ?_
  obtain ⟨v, hv, _⟩ := h w hw
  cases hv

end FoundIn

variable {g : Graph} {coarse fine : Entries Value}

/-! ## 2. One check -/

/-- **A table that meets every demand that another one meets is found no worse.** -/
theorem checkSchema_foundIn {stage : Option String} {heading : Heading} :
    ∀ {s : Schema} {vs ws : List Violation},
      (∀ e ∈ s, g.Conforms e.2 (valueAt coarse e.1) → g.Conforms e.2 (valueAt fine e.1)) →
      checkSchema g stage heading coarse s = .ok vs → checkSchema g stage heading fine s = .ok ws →
      FoundIn ws vs
  | [], _, _, _, h, h' => by
      cases h
      cases h'
      exact .refl []
  | (key, t) :: s, _, _, hdemands, h, h' => by
      obtain ⟨hkey, hdemands⟩ := List.forall_mem_cons.1 hdemands
      rw [checkSchema] at h h'
      obtain ⟨f, hf, h⟩ := Step.bind_eq_ok.1 h
      obtain ⟨later, hlater, h⟩ := Step.bind_eq_ok.1 h
      obtain ⟨f', hf', h'⟩ := Step.bind_eq_ok.1 h'
      obtain ⟨later', hlater', h'⟩ := Step.bind_eq_ok.1 h'
      cases h
      cases h'
      have hrest : FoundIn later' later := checkSchema_foundIn hdemands hlater hlater'
      cases f with
      | none =>
          -- the demand is met by the one table, and so by the other
          have hmet := hkey (verdict_none_iff.1 (checkKey_iff.1 hf))
          have hverdict : Verdict g heading (valueAt fine key) key t none := verdict_none_iff.2 hmet
          have hnone := checkKey_iff.2 hverdict
          obtain rfl : none = f' := Except.ok.inj (hnone.symm.trans hf')
          exact hrest
      | some f =>
          cases f' with
          | none => exact fun w hw =>
              (hrest w hw).imp fun v hv => ⟨List.mem_cons_of_mem _ hv.1, hv.2⟩
          | some f' =>
              obtain ⟨hheading, hname, _⟩ := (checkKey_iff.1 hf).place
              obtain ⟨hheading', hname', _⟩ := (checkKey_iff.1 hf').place
              have hfirst : FoundIn [⟨stage, f'⟩] [⟨stage, f⟩] := by
                intro w hw
                obtain rfl := List.mem_singleton.1 hw
                exact ⟨_, List.mem_singleton_self _,
                  ⟨rfl, hheading.trans hheading'.symm, hname.trans hname'.symm⟩⟩
              exact hfirst.append hrest

/-! ## 3. One stage -/

/-- A table of types, in which each name of another table of types has a type that may stand for the
    one that it has there. -/
structure Sharper (g : Graph) (coarse fine : Entries Value) : Prop where
  meets : Meets g coarse fine
  types : ∀ key v, fine.find? key = some v → ∃ t, v = .type t

theorem Sharper.of_refines {s s' : Schema} (hs : ∀ e ∈ s, e.2.WellFormed)
    (h : ∀ key, Refines (s.find? key) (s'.find? key)) : Sharper g (typed s) (typed s') where
  meets key v hv := by
    rw [find?_typed] at hv
    obtain ⟨t, ht, rfl⟩ := Option.map_eq_some_iff.1 hv
    obtain ⟨u, hu, hcompatible⟩ := h key t ht
    have hfine : (typed s').find? key = some (.type u) := by rw [find?_typed, hu]; rfl
    refine ⟨t, rfl, hs _ (Entries.mem_of_find? ht), ?_⟩
    rw [valueAt_of_find? hfine]
    exact Graph.conforms_type_iff.2 hcompatible
  types key v hv := by
    rw [find?_typed] at hv
    obtain ⟨t, -, rfl⟩ := Option.map_eq_some_iff.1 hv
    exact ⟨t, rfl⟩

namespace Sharper

theorem observable (h : Sharper g coarse fine) : ObservableTable g fine := by
  intro key v hv hint
  obtain ⟨t, rfl⟩ := h.types key v hv
  exact ⟨t, g.observe_type hint t⟩

/-- A demand that is met by the coarser table is met by the sharper one. -/
theorem conforms (h : Sharper g coarse fine) {demanded : TypeSpec} (hwf : demanded.WellFormed)
    (key : String) (hmet : g.Conforms demanded (valueAt coarse key)) :
    g.Conforms demanded (valueAt fine key) :=
  h.meets.conforms hwf (h.observable.valueAt key) hmet

/-- **Behind a stage the sharper table is still the sharper one.** -/
theorem effectOn (h : Sharper g coarse fine) {ps : Produced} (hps : ps.WellFormed)
    {coarse' fine' : Entries Value} (hcoarse : SchemaFlow.effectOn g ps coarse = .ok coarse')
    (hfine : SchemaFlow.effectOn g ps fine = .ok fine') : Sharper g coarse' fine' where
  meets := by
    have hseen : ∀ key fields, ps.find? key = some (.modify fields) →
        SeenAs g fields (valueAt coarse key) (valueAt fine key) :=
      fun key _ _ name _ => Production.recordFields_refines (h.meets.refines (h.types key)) name
    exact h.meets.effectOn_data hps h.observable.readable hseen hcoarse hfine
  types key v hv :=
    (type_or_kept_of_effectOn hps.distinct h.observable.readable hfine hv).elim id (h.types key v)

/-- A stage finds nothing in the sharper table that it does not find in the coarser one. -/
theorem check (h : Sharper g coarse fine) {pass : Pass} {stage : String} {c : Contract}
    (hc : c.WellFormed) {vs ws : List Violation} (hcoarse : pass.check g stage c coarse = .ok vs)
    (hfine : pass.check g stage c fine = .ok ws) : FoundIn ws vs := by
  obtain ⟨input, hinput, rfl⟩ := Pass.check_eq_ok.1 hcoarse
  obtain ⟨input', hinput', rfl⟩ := Pass.check_eq_ok.1 hfine
  have hdemand : (c.demand pass.phase).2.WellFormed := hc.demand pass.phase
  -- what is said about the state of the stage does not depend on the table
  exact (checkSchema_foundIn (fun e he => h.conforms (hdemand.types e he) e.1) hinput
    hinput').append (.refl _)

end Sharper

/-! ## 4. A chain -/

/-- **What is found with the sharper table is found at the same place with the coarser one**, all
along a row of stages. -/
theorem Walk.sharpened {pass : Pass} : ∀ {ls : List (String × Contract)}
    {coarse fine last last' : Entries Value} {founds founds' : List (List Violation)},
    (∀ l ∈ ls, l.2.WellFormed) → Sharper g coarse fine → Walk g pass ls coarse founds last →
      Walk g pass ls fine founds' last' → FoundIn founds'.flatten founds.flatten
  | [], _, _, _, _, _, _, _, _, h, h' => by
      cases h
      cases h'
      exact .refl []
  | (stage, c) :: ls, _, _, _, _, _, _, hls, hsharper, h, h' => by
      obtain ⟨hc, hls⟩ := List.forall_mem_cons.1 hls
      cases h with
      | cons hcheck hnext hrest =>
          cases h' with
          | cons hcheck' hnext' hrest' =>
              rw [List.flatten_cons, List.flatten_cons]
              exact (hsharper.check hc hcheck hcheck').append
                (Walk.sharpened hls (hsharper.effectOn hc.produced hnext hnext') hrest hrest')

/-- **Knowing more of the input brings up no violation.** Where each name of a schema is a name of a
second one, with a type that may stand for the declared one, the static check of a chain against the
second schema finds a violation only where the check against the first one finds one: at the same
stage, under the same heading and about the same name. A chain that is consistent for the first
schema is consistent for the second. -/
theorem Chain.checkStatic_sharpened {chain : Chain} (hchain : chain.WellFormed) {s s' : Schema}
    (hs : ∀ e ∈ s, e.2.WellFormed) (h : ∀ key, Refines (s.find? key) (s'.find? key))
    (phase : Phase) :
    ∃ vs ws, chain.checkStatic g (typed s) phase = .ok vs ∧
      chain.checkStatic g (typed s') phase = .ok ws ∧ FoundIn ws vs ∧ (vs = [] → ws = []) := by
  have hls : ∀ l ∈ chain.leaves, l.2.WellFormed := fun _ hl => hchain.of_mem_leaves hl
  have hwalk : ∀ s : Schema, ∃ founds last,
      Walk g { phase := phase } chain.leaves (typed s) founds last := fun s =>
    exists_walk_of_answers hls (Graph.Answers.typed g _ s)
  obtain ⟨founds, last, hcoarse⟩ := hwalk s
  obtain ⟨founds', last', hfine⟩ := hwalk s'
  have hfound := Walk.sharpened hls (.of_refines hs h) hcoarse hfine
  refine ⟨_, _, Chain.violations_of_walk hcoarse, Chain.violations_of_walk hfine, hfound,
    fun hclean => ?_⟩
  rw [hclean] at hfound
  exact hfound.eq_nil

/-- Little is known of what the sample two deep starts from. -/
def looseSchema : Schema := [("meta", .emptyRecord), ("rows", .sequence .emptyRecord)]

/-- More is known of it: the fields of its records, and a name that it drops. -/
def closeSchema : Schema :=
  [("rows", .sequence (.record [("id", .scalar .string)] none)),
    ("meta", .record [("seen", .scalar .string)] none), ("raw", .scalar .string)]

/-- The sample two deep against either schema. -/
theorem Chain.checkStatic_sharpened_nested :
    nestedSample.WellFormed ∧ (∀ e ∈ looseSchema, e.2.WellFormed) ∧
      (∀ key, Refines (looseSchema.find? key) (closeSchema.find? key)) ∧
      ∃ vs ws, nestedSample.checkStatic {} (typed looseSchema) .transform = .ok vs ∧
        nestedSample.checkStatic {} (typed closeSchema) .transform = .ok ws ∧
        FoundIn ws vs ∧ (vs = [] → ws = []) := by
  have hs : ∀ e ∈ looseSchema, e.2.WellFormed := by decide
  have hrefines : ∀ key, Refines (looseSchema.find? key) (closeSchema.find? key) := by
    intro key t ht
    have hmem := Entries.mem_of_find? ht
    simp only [looseSchema, List.mem_cons, Prod.mk.injEq, List.not_mem_nil, or_false] at hmem
    rcases hmem with ⟨rfl, rfl⟩ | ⟨rfl, rfl⟩
    · exact ⟨_, rfl, rfl⟩
    · exact ⟨_, rfl, rfl⟩
  exact ⟨by decide, hs, hrefines, Chain.checkStatic_sharpened (by decide) hs hrefines .transform⟩

end SchemaFlow
