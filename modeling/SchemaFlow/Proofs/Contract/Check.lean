import Mathlib.Data.List.ReduceOption
import SchemaFlow.Contract.Check
import SchemaFlow.Proofs.Production.OnData
import SchemaFlow.Proofs.Steps

/-!
# What a check finds

A check goes through the declared names one by one, and each of them has its own finding or none
(`checkSchema_iff`). Whoever looks a name up among the violations finds what was found about it and
nothing else (`filter_checkSchema`).
-/

namespace SchemaFlow

/-! ## 1. Data that can be observed -/

/-- A table of types as a table of data. -/
def typed (s : Schema) : Entries Value := s.map fun e => (e.1, .type e.2)

theorem find?_typed (name : String) : ∀ s : Schema,
    (typed s).find? name = stored? (s.find? name)
  | [] => rfl
  | e :: s => by
      have ih := find?_typed name s
      unfold typed at ih ⊢
      rw [List.map_cons, Entries.find?_cons, Entries.find?_cons, ih]
      split <;> rfl

/-- A value that can be observed under every hint. -/
def Graph.Observable (g : Graph) (v : Value) : Prop :=
  ∀ hint : Option TypeSpec, ∃ t, g.observe hint v = .ok t

theorem Graph.observable_text (g : Graph) (s : String) : g.Observable (.text s) :=
  fun _ => ⟨.scalar .string, by simp [observe, observeAt, leafType]⟩

theorem Graph.observable_null (g : Graph) : g.Observable .null :=
  fun _ => ⟨.handle "null", by simp [observe, observeAt, leafType]⟩

/-- No observation fails that a check of the demanded types or a modification makes of the data. -/
structure Graph.Answers (g : Graph) (demanded : List (String × TypeSpec))
    (data : Entries Value) : Prop where
  readable : g.ReadableTable data
  observed : ∀ key t v, (key, t) ∈ demanded → data.find? key = some v →
    ∃ u, g.observe (some t) v = .ok u

namespace Graph.Answers

variable {g : Graph} {demanded : List (String × TypeSpec)} {data : Entries Value}

/-- Data of which every value can be observed under every hint. -/
theorem of_observable (h : ∀ e ∈ data, g.Observable e.2) : g.Answers demanded data :=
  ⟨fun _ _ hv => h _ (Entries.mem_of_find? hv) _,
    fun _ t _ _ hv => h _ (Entries.mem_of_find? hv) (some t)⟩

/-- A table of types can always be observed. -/
theorem typed (g : Graph) (demanded : List (String × TypeSpec)) (s : Schema) :
    g.Answers demanded (typed s) := by
  have htype : ∀ key v, (SchemaFlow.typed s).find? key = some v → ∃ t, v = .type t := by
    intro key v hv
    rw [find?_typed] at hv
    obtain ⟨t, -, rfl⟩ := Option.map_eq_some_iff.1 hv
    exact ⟨t, rfl⟩
  refine ⟨fun key v hv => ?_, fun key t v _ hv => ?_⟩
  · obtain ⟨t, rfl⟩ := htype key v hv
    exact g.readable_type t
  · obtain ⟨u, rfl⟩ := htype key v hv
    exact ⟨u, g.observe_type _ u⟩

/-- Productions leave data behind that can be observed again. -/
theorem effectOn (h : g.Answers demanded data) {ps : Produced} (hd : ps.Distinct)
    {next : Entries Value} (hnext : effectOn g ps data = .ok next) : g.Answers demanded next := by
  refine ⟨h.readable.effectOn hd hnext, fun key t v hmem hv => ?_⟩
  rcases type_or_kept_of_effectOn hd h.readable hnext hv with ⟨u, rfl⟩ | hkept
  · exact ⟨u, g.observe_type _ u⟩
  · exact h.observed key t v hmem hkept

end Graph.Answers

/-! ## 2. One name -/

/-- **What a check says about one name**: it is missing, or it is observed and diagnosed. -/
def Verdict (g : Graph) (heading : Heading) (v : Value) (key : String) (t : TypeSpec)
    (found : Option Finding) : Prop :=
  if v.isAbsent then found = some (.missing heading key t)
  else ∃ u, g.observe (some t) v = .ok u ∧
    found = (t.diagnose u).map fun m => .misfit heading key t u m

theorem checkKey_iff {g : Graph} {heading : Heading} {data : Entries Value} {key : String}
    {t : TypeSpec} {found : Option Finding} :
    checkKey g heading data key t = .ok found ↔
      Verdict g heading (valueAt data key) key t found := by
  unfold checkKey Verdict valueAt
  split
  · rename_i hv
    rw [hv]
    simp only [Value.isAbsent, if_true, Except.ok.injEq]
    exact eq_comm
  · rename_i hv
    have hpresent : ((data.find? key).getD .absent).isAbsent = false := by
      cases hw : (data.find? key).getD .absent with
      | absent => exact absurd hw hv
      | _ => rfl
    rw [hpresent, Step.bind_eq_ok]
    simp only [Bool.false_eq_true, if_false, Except.ok.injEq]
    exact exists_congr fun u => and_congr_right fun _ => eq_comm

theorem checkKey_returns {g : Graph} {data : Entries Value} {key : String} {t : TypeSpec}
    (h : ∀ v, data.find? key = some v → ∃ u, g.observe (some t) v = .ok u) (heading : Heading) :
    ∃ found, checkKey g heading data key t = .ok found := by
  unfold checkKey
  cases hv : data.find? key with
  | none => exact ⟨_, rfl⟩
  | some v =>
      obtain ⟨u, hu⟩ := h v hv
      rw [Option.getD_some]
      split
      · exact ⟨_, rfl⟩
      · rw [Step.bind_of_ok hu]
        exact ⟨_, rfl⟩

/-- What is found about a name stands under its heading and its name. -/
theorem Verdict.place {g : Graph} {heading : Heading} {v : Value} {key : String} {t : TypeSpec}
    {f : Finding} (h : Verdict g heading v key t (some f)) :
    f.heading = heading ∧ f.key? = some key ∧ f.kind ≠ "NotFitted" := by
  unfold Verdict at h
  split at h
  · cases h
    exact ⟨rfl, rfl, by simp [Finding.kind]⟩
  · obtain ⟨u, _, hf⟩ := h
    obtain ⟨m, _, rfl⟩ := Option.map_eq_some_iff.1 hf.symm
    exact ⟨rfl, rfl, by cases m <;> simp [Finding.kind]⟩

/-! ## 3. All declared names -/

/-- **A check returns what is found name by name.** -/
theorem checkSchema_iff {g : Graph} {stage : Option String} {heading : Heading}
    {data : Entries Value} : ∀ {s : Schema} {vs : List Violation},
    checkSchema g stage heading data s = .ok vs ↔
      ∃ found : List (Option Finding),
        List.Forall₂ (fun e f => Verdict g heading (valueAt data e.1) e.1 e.2 f) s found ∧
          vs = found.reduceOption.map fun f => ⟨stage, f⟩
  | [], vs => by
      rw [checkSchema]
      constructor
      · intro h
        cases h
        exact ⟨[], .nil, rfl⟩
      · rintro ⟨_, hfound, rfl⟩
        cases hfound
        rfl
  | (key, t) :: s, vs => by
      rw [checkSchema, Step.bind_eq_ok]
      constructor
      · rintro ⟨f, hf, h⟩
        obtain ⟨later, hlater, h⟩ := Step.bind_eq_ok.1 h
        obtain ⟨found, hfound, rfl⟩ := checkSchema_iff.1 hlater
        refine ⟨f :: found, .cons (checkKey_iff.1 hf) hfound, ?_⟩
        cases h
        cases f <;> rfl
      · rintro ⟨_, hfound, rfl⟩
        cases hfound with
        | @cons _ f _ found hf hfound =>
            refine ⟨f, checkKey_iff.2 hf, ?_⟩
            rw [Step.bind_of_ok (checkSchema_iff.2 ⟨found, hfound, rfl⟩)]
            cases f <;> rfl

/-- A value conforms to a type when it is there and what it exhibits under the type is compatible. -/
def Graph.Conforms (g : Graph) (t : TypeSpec) (v : Value) : Prop :=
  v.isAbsent = false ∧ ∃ u, g.observe (some t) v = .ok u ∧ t.isCompatible u = true

/-- Nothing is found about a name when its value conforms. -/
theorem verdict_none_iff {g : Graph} {heading : Heading} {v : Value} {key : String} {t : TypeSpec} :
    Verdict g heading v key t none ↔ g.Conforms t v := by
  unfold Verdict Graph.Conforms
  cases v.isAbsent with
  | true => simp
  | false =>
      simp only [Bool.false_eq_true, if_false, true_and]
      refine exists_congr fun u => and_congr_right fun _ => ?_
      rw [TypeSpec.isCompatible_iff, eq_comm, Option.map_eq_none_iff]

/-- **A check finds nothing when nothing is found about any declared name.** -/
theorem checkSchema_eq_nil_iff {g : Graph} {stage : Option String} {heading : Heading}
    {data : Entries Value} : ∀ {s : Schema}, checkSchema g stage heading data s = .ok [] ↔
      ∀ e ∈ s, Verdict g heading (valueAt data e.1) e.1 e.2 none
  | [] => by simp [checkSchema]
  | (key, t) :: s => by
      rw [checkSchema, List.forall_mem_cons, ← checkSchema_eq_nil_iff]
      constructor
      · intro h
        obtain ⟨f, hf, h⟩ := Step.bind_eq_ok.1 h
        obtain ⟨later, hlater, h⟩ := Step.bind_eq_ok.1 h
        cases f with
        | some f => cases h
        | none =>
            cases h
            exact ⟨checkKey_iff.1 hf, hlater⟩
      · rintro ⟨hkey, hs⟩
        rw [Step.bind_of_ok (checkKey_iff.2 hkey), Step.bind_of_ok hs]

/-- A check returns when every declared name that is there can be observed under its type. -/
theorem checkSchema_returns_of_observed {g : Graph} {data : Entries Value} (stage : Option String)
    (heading : Heading) : ∀ {s : Schema},
    (∀ e ∈ s, ∀ v, data.find? e.1 = some v → ∃ u, g.observe (some e.2) v = .ok u) →
      ∃ vs, checkSchema g stage heading data s = .ok vs
  | [], _ => ⟨[], rfl⟩
  | (key, t) :: s, h => by
      obtain ⟨hkey, h⟩ := List.forall_mem_cons.1 h
      obtain ⟨f, hf⟩ := checkKey_returns hkey heading
      obtain ⟨later, hlater⟩ := checkSchema_returns_of_observed stage heading h
      rw [checkSchema, Step.bind_of_ok hf, Step.bind_of_ok hlater]
      exact ⟨_, rfl⟩

theorem checkSchema_returns {g : Graph} {demanded : List (String × TypeSpec)}
    {data : Entries Value} (h : g.Answers demanded data) (stage : Option String)
    (heading : Heading) {s : Schema} (hsub : ∀ e ∈ s, e ∈ demanded) :
    ∃ vs, checkSchema g stage heading data s = .ok vs :=
  checkSchema_returns_of_observed stage heading fun e he v hv =>
    h.observed e.1 e.2 v (hsub e he) hv

/-- Every violation of a check stands at the stage, under the heading, and about a declared name. -/
theorem mem_checkSchema {g : Graph} {stage : Option String} {heading : Heading}
    {data : Entries Value} : ∀ {s : Schema} {vs : List Violation},
    checkSchema g stage heading data s = .ok vs → ∀ v ∈ vs, v.stage = stage ∧
      v.finding.heading = heading ∧ v.finding.kind ≠ "NotFitted" ∧
        ∃ key ∈ s.names, v.finding.key? = some key := by
  intro s vs h v hv
  obtain ⟨found, hfound, rfl⟩ := checkSchema_iff.1 h
  clear h
  obtain ⟨f, hf, rfl⟩ := List.mem_map.1 hv
  clear hv
  rw [List.reduceOption_mem_iff] at hf
  induction hfound with
  | nil => cases hf
  | @cons e f' s found hverdict _ ih =>
      rcases List.mem_cons.1 hf with rfl | hf
      · obtain ⟨hheading, hkey, hkind⟩ := hverdict.place
        exact ⟨rfl, hheading, hkind, e.1, List.mem_cons_self, hkey⟩
      · obtain ⟨hstage, hheading, hkind, key, hmem, hkey⟩ := ih hf
        exact ⟨hstage, hheading, hkind, key, List.mem_cons_of_mem _ hmem, hkey⟩

/-- **Whoever looks for a declared name finds what was found about it**, and nothing else. -/
theorem filter_checkSchema {g : Graph} {stage : Option String} {heading : Heading}
    {data : Entries Value} {key : String} {t : TypeSpec} : ∀ {s : Schema} {vs : List Violation},
    s.Distinct → (key, t) ∈ s → checkSchema g stage heading data s = .ok vs →
      ∃ found, Verdict g heading (valueAt data key) key t found ∧
        vs.filter (fun v => v.finding.key? = some key) = found.toList.map fun f => ⟨stage, f⟩
  | [], _, _, hmem, _ => absurd hmem List.not_mem_nil
  | (k, u) :: s, vs, hd, hmem, h => by
      obtain ⟨hk, hd⟩ := Entries.distinct_cons_iff.1 hd
      rw [checkSchema] at h
      obtain ⟨f, hf, h⟩ := Step.bind_eq_ok.1 h
      obtain ⟨later, hlater, h⟩ := Step.bind_eq_ok.1 h
      cases h
      have hf := checkKey_iff.1 hf
      rcases List.mem_cons.1 hmem with heq | hmem
      · obtain ⟨rfl, rfl⟩ := Prod.mk.inj heq
        -- no other entry has the name
        have hnone : later.filter (fun v => v.finding.key? = some key) = [] := by
          refine List.filter_eq_nil_iff.2 fun v hv hkey => ?_
          obtain ⟨_, _, _, k, hmem, hk'⟩ := mem_checkSchema hlater v hv
          rw [decide_eq_true_eq, hk', Option.some.injEq] at hkey
          exact Entries.find?_eq_none_iff.1 hk (hkey ▸ hmem)
        refine ⟨f, hf, ?_⟩
        cases f with
        | none => exact hnone
        | some f =>
            have hkey : decide (f.key? = some key) = true := decide_eq_true hf.place.2.1
            simp only [List.filter_cons, hkey, if_true, hnone]
            rfl
      · obtain ⟨found, hverdict, hfilter⟩ := filter_checkSchema hd hmem hlater
        refine ⟨found, hverdict, ?_⟩
        cases f with
        | none => exact hfilter
        | some f =>
            have hne : ¬ k = key := by
              rintro rfl
              rw [hd.find?_of_mem hmem] at hk
              cases hk
            have hkey : decide (f.key? = some key) = false := by
              rw [decide_eq_false_iff_not, hf.place.2.1, Option.some.injEq]
              exact hne
            simp only [List.filter_cons, hkey, hfilter]
            rfl

/-! ## 4. The order of names and fields does not matter -/

/-- Two violations that differ in the order of observed record fields only. -/
structure Violation.Alike (v w : Violation) : Prop where
  stage : v.stage = w.stage
  kind : v.finding.kind = w.finding.kind
  heading : v.finding.heading = w.finding.heading
  key : v.finding.key? = w.finding.key?
  expected : v.finding.expected? = w.finding.expected?
  observed : Option.Rel TypeSpec.Alike v.finding.observed? w.finding.observed?

theorem Violation.Alike.refl (v : Violation) : v.Alike v :=
  ⟨rfl, rfl, rfl, rfl, rfl, OptionRel.refl TypeSpec.Alike.refl _⟩

theorem Value.Alike.isAbsent {v w : Value} (h : v.Alike w) : v.isAbsent = w.isAbsent := by
  cases h <;> rfl

/-- What is observed of values that are alike is alike. -/
theorem Value.Alike.observe {g : Graph} {v w : Value} (h : v.Alike w) {hint : Option TypeSpec}
    {t u : TypeSpec} (ht : g.observe hint v = .ok t) (hu : g.observe hint w = .ok u) :
    t.Alike u := by
  cases h with
  | refl =>
      obtain rfl : t = u := Except.ok.inj (ht.symm.trans hu)
      exact TypeSpec.Alike.refl t
  | type halike =>
      rw [g.observe_type] at ht hu
      cases ht
      cases hu
      exact halike

theorem Verdict.alike {g : Graph} {heading : Heading} {v w : Value} {key : String} {t : TypeSpec}
    {f f' : Option Finding} (hvw : v.Alike w) (h : Verdict g heading v key t f)
    (h' : Verdict g heading w key t f') (stage : Option String) :
    Option.Rel (fun f f' => Violation.Alike ⟨stage, f⟩ ⟨stage, f'⟩) f f' := by
  unfold Verdict at h h'
  rw [← hvw.isAbsent] at h'
  split at h
  · rw [if_pos (by assumption)] at h'
    rw [h, h']
    exact .some (Violation.Alike.refl _)
  · rw [if_neg (by assumption)] at h'
    obtain ⟨u, hu, rfl⟩ := h
    obtain ⟨u', hu', rfl⟩ := h'
    have halike : u.Alike u' := hvw.observe hu hu'
    rw [← TypeSpec.diagnose_alike t halike]
    cases t.diagnose u with
    | none => exact .none
    | some m => exact .some ⟨rfl, by cases m <;> rfl, rfl, rfl, rfl, .some halike⟩

/-- **A check finds the same in tables that are the same up to order.** -/
theorem checkSchema_alike {g : Graph} {stage : Option String} {heading : Heading}
    {data other : Entries Value} (hsame : SameData data other) : ∀ {s : Schema}
    {vs ws : List Violation}, checkSchema g stage heading data s = .ok vs →
      checkSchema g stage heading other s = .ok ws → List.Forall₂ Violation.Alike vs ws
  | [], _, _, h, h' => by
      cases h
      cases h'
      exact .nil
  | (key, t) :: s, _, _, h, h' => by
      rw [checkSchema] at h h'
      obtain ⟨f, hf, h⟩ := Step.bind_eq_ok.1 h
      obtain ⟨vs, hvs, h⟩ := Step.bind_eq_ok.1 h
      obtain ⟨f', hf', h'⟩ := Step.bind_eq_ok.1 h'
      obtain ⟨ws, hws, h'⟩ := Step.bind_eq_ok.1 h'
      cases h
      cases h'
      have hrest := checkSchema_alike hsame hvs hws
      cases (checkKey_iff.1 hf).alike (hsame.valueAt key) (checkKey_iff.1 hf') stage with
      | none => exact hrest
      | some hff => exact .cons hff hrest

end SchemaFlow
