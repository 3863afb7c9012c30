import SchemaFlow.Proofs.Chain.Walk

/-!
# Names on their own

A chain looks at data name by name. What a stage leaves under a name, and what it says about it, comes
from what stands under that name and from nothing else, at any depth of nesting.

* `SameUnder.effectOn`, `valueAt_effectOn`: productions work on each name by itself, and leave those
  alone that they do not mention.
* `passLinks_within`: two passes over data that is the same under some names find the same, but for
  findings about other names.
* `passLinks_eased`: a pass does not fail on less: it returns on data from which values have been
  taken, or for which types stand.
* `Chain.findings_local`: so it is with the checks of a chain, and a name that is deleted is all that
  can be missed.
-/

namespace SchemaFlow

variable {g : Graph} {data other next next' : Entries Value}

/-! ## 1. Tables under some of their names -/

/-- Two tables have the same values under the names of a set. An absent value is as good as none. -/
def SameUnder (names : String → Prop) (data other : Entries Value) : Prop :=
  ∀ name, names name → valueAt data name = valueAt other name

/-- A value that can be observed in any case: none, or a type. -/
inductive Value.Settled : Value → Prop
  | absent : Settled .absent
  | type (t : TypeSpec) : Settled (.type t)

theorem Value.Settled.readable {v : Value} (h : v.Settled) : g.Readable v := by
  cases h with
  | absent => exact g.readable_absent
  | type t => exact g.readable_type t

theorem Value.Settled.stored? (t : Option TypeSpec) :
    ((SchemaFlow.stored? t).getD .absent).Settled := by
  cases t with
  | none => exact .absent
  | some t => exact .type t

/-- Under the names of a set a table has what another one has there, or a settled value. -/
def EasedUnder (names : String → Prop) (data other : Entries Value) : Prop :=
  ∀ name, names name → valueAt other name = valueAt data name ∨ (valueAt other name).Settled

theorem SameUnder.eased {names : String → Prop} (h : SameUnder names data other) :
    EasedUnder names data other := fun name hname => Or.inl (h name hname).symm

/-- A table without one of its names. -/
theorem valueAt_erase (data : Entries Value) (key name : String) :
    valueAt (data.erase key) name = if name = key then .absent else valueAt data name := by
  unfold valueAt
  rw [Entries.find?_erase]
  split <;> rfl

/-! ## 2. Productions -/

/-- A table with what a production leaves under a name. -/
def storeUnder (data : Entries Value) (name : String) : Option TypeSpec → Entries Value
  | some t => data.put name (.type t)
  | none => data.erase name

theorem valueAt_storeUnder (data : Entries Value) (name : String) (t : Option TypeSpec)
    (key : String) : valueAt (storeUnder data name t) key =
      if key = name then (stored? t).getD .absent else valueAt data key := by
  cases t with
  | none => exact valueAt_erase data name key
  | some t =>
      unfold storeUnder valueAt
      rw [Entries.find?_put]
      split <;> rfl

theorem effectOn_cons_eq_ok {name : String} {p : Production} {ps : Produced} :
    effectOn g ((name, p) :: ps) data = .ok next ↔
      ∃ t, p.applyTo g (valueAt data name) = .ok t ∧
        effectOn g ps (storeUnder data name t) = .ok next := by
  rw [effectOn, Step.bind_eq_ok]
  refine exists_congr fun t => and_congr_right fun _ => ?_
  cases t <;> exact Iff.rfl

/-- **What productions leave under a name comes from what stood there.** -/
theorem SameUnder.effectOn {names : String → Prop} : ∀ {ps : Produced}
    {data other next next' : Entries Value}, SameUnder names data other →
      effectOn g ps data = .ok next → effectOn g ps other = .ok next' → SameUnder names next next'
  | [], _, _, _, _, h, hnext, hnext' => by
      cases hnext
      cases hnext'
      exact h
  | (name, p) :: ps, data, other, _, _, h, hnext, hnext' => by
      obtain ⟨t, ht, hnext⟩ := effectOn_cons_eq_ok.1 hnext
      obtain ⟨t', ht', hnext'⟩ := effectOn_cons_eq_ok.1 hnext'
      refine SameUnder.effectOn (fun key hkey => ?_) hnext hnext'
      rw [valueAt_storeUnder, valueAt_storeUnder]
      by_cases hk : key = name
      · subst hk
        rw [h key hkey] at ht
        obtain rfl : t = t' := Except.ok.inj (ht.symm.trans ht')
        rw [if_pos rfl, if_pos rfl]
      · rw [if_neg hk, if_neg hk]
        exact h key hkey

/-- **Productions leave a name alone that they do not mention.** -/
theorem valueAt_effectOn {key : String} : ∀ {ps : Produced} {data next : Entries Value},
    key ∉ ps.names → effectOn g ps data = .ok next → valueAt next key = valueAt data key
  | [], _, _, _, hnext => by
      cases hnext
      rfl
  | (name, p) :: ps, data, _, hkey, hnext => by
      obtain ⟨hname, hps⟩ : key ≠ name ∧ key ∉ Entries.names ps := by
        simpa [Entries.names] using hkey
      obtain ⟨t, _, hnext⟩ := effectOn_cons_eq_ok.1 hnext
      rw [valueAt_effectOn hps hnext, valueAt_storeUnder, if_neg hname]

/-- Productions do not fail on less. -/
theorem EasedUnder.effectOn {names : String → Prop} : ∀ {ps : Produced}
    {data other next : Entries Value}, (∀ name ∈ ps.names, names name) →
      EasedUnder names data other → effectOn g ps data = .ok next →
      ∃ next', effectOn g ps other = .ok next' ∧ EasedUnder names next next'
  | [], _, other, _, _, h, hnext => by
      cases hnext
      exact ⟨other, rfl, h⟩
  | (name, p) :: ps, data, other, _, hps, h, hnext => by
      obtain ⟨hname, hps⟩ := List.forall_mem_cons.1 hps
      obtain ⟨t, ht, hnext⟩ := effectOn_cons_eq_ok.1 hnext
      obtain ⟨t', ht'⟩ : ∃ t', p.applyTo g (valueAt other name) = .ok t' := by
        rcases h name hname with hsame | hsettled
        · exact ⟨t, hsame ▸ ht⟩
        · exact ⟨_, p.applyTo_eq hsettled.readable⟩
      have hstore : EasedUnder names (storeUnder data name t) (storeUnder other name t') := by
        intro key hkey
        rw [valueAt_storeUnder, valueAt_storeUnder]
        split
        · exact Or.inr (.stored? t')
        · exact h key hkey
      obtain ⟨next', hnext', heased⟩ := EasedUnder.effectOn hps hstore hnext
      exact ⟨next', effectOn_cons_eq_ok.2 ⟨t', ht', hnext'⟩, heased⟩

/-! ## 3. Checks of declared names -/

/-- A heading under which a phase demands data. -/
def Heading.isInput : Heading → Bool
  | .slot .fitRequires | .slot .transformRequires => true
  | _ => false

theorem Contract.isInput_demand (c : Contract) (phase : Phase) :
    (Heading.slot (c.demand phase).1).isInput = true := by
  cases phase <;> rfl

/-- What is found about the data that a phase demands is about a name of a set. -/
def Violation.within (names : String → Bool) (v : Violation) : Bool :=
  !v.finding.heading.isInput || v.finding.key?.all names

theorem checkKey_congr (heading : Heading) {key : String} (t : TypeSpec)
    (h : valueAt data key = valueAt other key) :
    checkKey g heading data key t = checkKey g heading other key t := by
  unfold valueAt at h
  unfold checkKey
  rw [h]

/-- A check looks at the names that are declared. -/
theorem checkSchema_congr (stage : Option String) (heading : Heading) : ∀ {s : Schema},
    SameUnder (· ∈ s.names) data other →
      checkSchema g stage heading data s = checkSchema g stage heading other s
  | [], _ => rfl
  | (key, t) :: s, h => by
      have hs : SameUnder (· ∈ Entries.names s) data other :=
        fun name hname => h name (List.mem_cons_of_mem _ hname)
      rw [checkSchema, checkSchema, checkKey_congr heading t (h key List.mem_cons_self),
        checkSchema_congr stage heading hs]

theorem Value.Settled.verdict {v : Value} (h : v.Settled) (heading : Heading) (key : String)
    (t : TypeSpec) : ∃ found, Verdict g heading v key t found := by
  cases h with
  | absent => exact ⟨_, rfl⟩
  | type u => exact ⟨_, u, g.observe_type _ u, rfl⟩

/-- A check does not fail on less. -/
theorem EasedUnder.checkSchema {names : String → Prop} (h : EasedUnder names data other)
    (stage : Option String) (heading : Heading) : ∀ {s : Schema} {vs : List Violation},
    (∀ name ∈ s.names, names name) → checkSchema g stage heading data s = .ok vs →
      ∃ ws, checkSchema g stage heading other s = .ok ws
  | [], _, _, _ => ⟨[], rfl⟩
  | (key, t) :: s, _, hs, hvs => by
      obtain ⟨hkey, hs⟩ := List.forall_mem_cons.1 hs
      rw [SchemaFlow.checkSchema] at hvs ⊢
      obtain ⟨f, hf, hvs⟩ := Step.bind_eq_ok.1 hvs
      obtain ⟨later, hlater, -⟩ := Step.bind_eq_ok.1 hvs
      obtain ⟨f', hf'⟩ : ∃ f', checkKey g heading other key t = .ok f' := by
        rcases h key hkey with hsame | hsettled
        · exact ⟨f, (checkKey_congr heading t hsame).trans hf⟩
        · obtain ⟨f', hf'⟩ := hsettled.verdict (g := g) heading key t
          exact ⟨f', checkKey_iff.2 hf'⟩
      obtain ⟨later', hlater'⟩ := EasedUnder.checkSchema h stage heading hs hlater
      rw [Step.bind_of_ok hf', Step.bind_of_ok hlater']
      exact ⟨_, rfl⟩

/-- **What is found about a name comes from what stands under it.** -/
theorem checkSchema_within {names : String → Bool} (h : SameUnder (names · = true) data other)
    {stage : Option String} {heading : Heading} (hheading : heading.isInput = true) :
    ∀ {s : Schema} {vs ws : List Violation}, checkSchema g stage heading data s = .ok vs →
      checkSchema g stage heading other s = .ok ws →
        vs.filter (·.within names) = ws.filter (·.within names)
  | [], _, _, hvs, hws => by
      cases hvs
      cases hws
      rfl
  | (key, t) :: s, _, _, hvs, hws => by
      rw [checkSchema] at hvs hws
      obtain ⟨f, hf, hvs⟩ := Step.bind_eq_ok.1 hvs
      obtain ⟨later, hlater, hvs⟩ := Step.bind_eq_ok.1 hvs
      obtain ⟨f', hf', hws⟩ := Step.bind_eq_ok.1 hws
      obtain ⟨later', hlater', hws⟩ := Step.bind_eq_ok.1 hws
      cases hvs
      cases hws
      have ih := checkSchema_within h hheading hlater hlater'
      cases hkey : names key with
      | true =>
          obtain rfl : f = f' := Except.ok.inj
            (hf.symm.trans ((checkKey_congr heading t (h key hkey)).trans hf'))
          cases f with
          | none => exact ih
          | some f => rw [List.filter_cons, List.filter_cons, ih]
      | false =>
          -- what is found about a name outside the set is left out on both sides
          have hout : ∀ {table : Entries Value} {f : Finding},
              checkKey g heading table key t = .ok (some f) →
                Violation.within names ⟨stage, f⟩ = false := by
            intro table f hfound
            obtain ⟨hplace, hname, _⟩ := (checkKey_iff.1 hfound).place
            simp [Violation.within, hplace, hname, hheading, hkey]
          cases f <;> cases f' <;> simp only [List.filter_cons]
          · exact ih
          · rw [hout hf', ih]
            rfl
          · rw [hout hf, ih]
            rfl
          · rw [hout hf, hout hf', ih]
            rfl

/-! ## 4. One stage -/

/-- What the check of a stage says about its parameters. -/
def Contract.onParameters (g : Graph) (c : Contract) (stage : Option String) (parameters : Value) :
    Except Fault (List Violation) := do
  let given ← g.payload parameters.orEmpty
  let declared ← checkSchema g stage (.slot .fitParameters) given c.fitParameters
  let all ← g.parameterEntries parameters.orEmpty
  let others ← c.undeclared g stage all
  .ok (declared ++ others)

/-- What the check of a stage says apart from the data. -/
def Pass.besides (g : Graph) (pass : Pass) (c : Contract) (stage name : String)
    (parameters : Option Source) : Except Fault (List Violation) :=
  match pass.phase with
  | .fit =>
    match parameters with
    | some given => do
      let own ← stageParameters g given name
      c.onParameters g (some stage) own
    | none => .ok []
  | .transform => .ok (c.fitMissing (some stage) (pass.counts stage))

/-- What the check of a stage says about the data. -/
def Pass.onData (g : Graph) (pass : Pass) (c : Contract) (stage : String) (data : Entries Value) :
    Except Fault (List Violation) :=
  checkSchema g (some stage) (.slot (c.demand pass.phase).1) data (c.demand pass.phase).2

theorem Contract.checkFit_eq_ok {c : Contract} {stage : Option String} {parameters : Value}
    {vs : List Violation} : c.checkFit g stage data parameters = .ok vs ↔
      ∃ input others, checkSchema g stage (.slot .fitRequires) data c.fitRequires = .ok input ∧
        c.onParameters g stage parameters = .ok others ∧ vs = input ++ others := by
  unfold checkFit onParameters
  simp only [Step.bind_eq_ok, Except.ok.injEq]
  constructor
  · rintro ⟨input, hinput, given, hgiven, declared, hdeclared, all, hall, others, hothers, rfl⟩
    exact ⟨input, declared ++ others, hinput,
      ⟨given, hgiven, declared, hdeclared, all, hall, others, hothers, rfl⟩,
      List.append_assoc _ _ _⟩
  · rintro ⟨input, _, hinput,
      ⟨given, hgiven, declared, hdeclared, all, hall, others, hothers, rfl⟩, rfl⟩
    exact ⟨input, hinput, given, hgiven, declared, hdeclared, all, hall, others, hothers,
      List.append_assoc _ _ _⟩

section Stage

variable {pass : Pass} {c : Contract} {stage name : String} {parameters : Option Source}
  {vs : List Violation}

/-- **The check of a stage is that of the data, and one that the data does not matter for.** -/
theorem stageViolations_eq_ok :
    stageViolations g pass c stage name parameters data = .ok vs ↔
      ∃ input others, pass.onData g c stage data = .ok input ∧
        pass.besides g c stage name parameters = .ok others ∧ vs = input ++ others := by
  unfold stageViolations Pass.onData Pass.besides
  cases pass.phase with
  | fit =>
      cases parameters with
      | none =>
          constructor
          · intro h
            exact ⟨vs, [], h, rfl, (List.append_nil vs).symm⟩
          · rintro ⟨input, others, h, hothers, rfl⟩
            cases hothers
            rw [List.append_nil]
            exact h
      | some given =>
          dsimp only
          simp only [Step.bind_eq_ok, Contract.checkFit_eq_ok]
          constructor
          · rintro ⟨own, hown, input, others, hinput, hothers, rfl⟩
            exact ⟨input, others, hinput, ⟨own, hown, hothers⟩, rfl⟩
          · rintro ⟨input, others, hinput, ⟨own, hown, hothers⟩, rfl⟩
            exact ⟨own, hown, input, others, hinput, hothers, rfl⟩
  | transform =>
      unfold Contract.checkTransform
      simp only [Step.bind_eq_ok, Except.ok.injEq]
      constructor
      · rintro ⟨input, hinput, rfl⟩
        exact ⟨input, _, hinput, rfl, rfl⟩
      · rintro ⟨input, _, hinput, rfl, rfl⟩
        exact ⟨input, hinput, rfl⟩

theorem EasedUnder.stageViolations {names : String → Prop} (h : EasedUnder names data other)
    (hc : ∀ name ∈ Entries.names (c.demand pass.phase).2, names name)
    (hvs : SchemaFlow.stageViolations g pass c stage name parameters data = .ok vs) :
    ∃ ws, SchemaFlow.stageViolations g pass c stage name parameters other = .ok ws := by
  obtain ⟨input, others, hinput, hothers, -⟩ := stageViolations_eq_ok.1 hvs
  obtain ⟨input', hinput'⟩ := h.checkSchema (some stage) _ hc hinput
  exact ⟨_, stageViolations_eq_ok.2 ⟨input', others, hinput', hothers, rfl⟩⟩

theorem stageViolations_within {names : String → Bool} (h : SameUnder (names · = true) data other)
    (hvs : stageViolations g pass c stage name parameters data = .ok vs) {ws : List Violation}
    (hws : stageViolations g pass c stage name parameters other = .ok ws) :
    vs.filter (·.within names) = ws.filter (·.within names) := by
  obtain ⟨input, others, hinput, hothers, rfl⟩ := stageViolations_eq_ok.1 hvs
  obtain ⟨input', others', hinput', hothers', rfl⟩ := stageViolations_eq_ok.1 hws
  obtain rfl : others = others' := Except.ok.inj (hothers.symm.trans hothers')
  rw [List.filter_append, List.filter_append,
    checkSchema_within h (c.isInput_demand pass.phase) hinput hinput']

end Stage

/-! ## 5. Passes -/

mutual

theorem passLink_within {pass : Pass} {names : String → Bool} : ∀ {l : Link} {lead name : String}
    {parameters : Option Source} {data other : Entries Value} {r r' : Outcome},
    SameUnder (names · = true) data other →
      passLink g pass lead parameters name l data = .ok r →
      passLink g pass lead parameters name l other = .ok r' →
      r.violations.filter (·.within names) = r'.violations.filter (·.within names) ∧
        SameUnder (names · = true) r.data r'.data
  | .stage c, lead, name, parameters, data, other, r, r', h, hr, hr' => by
      rw [passLink] at hr hr'
      obtain ⟨found, hfound, hr⟩ := Step.bind_eq_ok.1 hr
      obtain ⟨next, hnext, hr⟩ := Step.bind_eq_ok.1 hr
      obtain ⟨found', hfound', hr'⟩ := Step.bind_eq_ok.1 hr'
      obtain ⟨next', hnext', hr'⟩ := Step.bind_eq_ok.1 hr'
      cases hr
      cases hr'
      exact ⟨stageViolations_within h hfound hfound', h.effectOn hnext hnext'⟩
  | .chain links, lead, name, parameters, data, other, r, r', h, hr, hr' => by
      rw [passLink] at hr hr'
      obtain ⟨⟨given, found⟩, hgiven, hr⟩ := Step.bind_eq_ok.1 hr
      obtain ⟨sub, hsub, hr⟩ := Step.bind_eq_ok.1 hr
      rw [Step.bind_of_ok hgiven] at hr'
      obtain ⟨sub', hsub', hr'⟩ := Step.bind_eq_ok.1 hr'
      cases hr
      cases hr'
      obtain ⟨hviolations, hdata⟩ := passLinks_within h hsub hsub'
      refine ⟨?_, hdata⟩
      simp only [List.filter_append, hviolations]

/-- **What two passes find about names that have the same values is the same**, and these names have
    the same values behind them. -/
theorem passLinks_within {pass : Pass} {names : String → Bool} :
    ∀ {links : List (String × Link)} {lead : String} {parameters : Option Source}
      {data other : Entries Value} {r r' : Outcome}, SameUnder (names · = true) data other →
      passLinks g pass lead parameters links data = .ok r →
      passLinks g pass lead parameters links other = .ok r' →
      r.violations.filter (·.within names) = r'.violations.filter (·.within names) ∧
        SameUnder (names · = true) r.data r'.data
  | [], lead, parameters, data, other, r, r', h, hr, hr' => by
      rw [passLinks] at hr hr'
      cases hr
      cases hr'
      exact ⟨rfl, h⟩
  | (name, l) :: rest, lead, parameters, data, other, r, r', h, hr, hr' => by
      rw [passLinks] at hr hr'
      obtain ⟨first, hfirst, hr⟩ := Step.bind_eq_ok.1 hr
      obtain ⟨later, hlater, hr⟩ := Step.bind_eq_ok.1 hr
      obtain ⟨first', hfirst', hr'⟩ := Step.bind_eq_ok.1 hr'
      obtain ⟨later', hlater', hr'⟩ := Step.bind_eq_ok.1 hr'
      cases hr
      cases hr'
      obtain ⟨hviolations, hmiddle⟩ := passLink_within h hfirst hfirst'
      obtain ⟨hviolations', hdata⟩ := passLinks_within hmiddle hlater hlater'
      refine ⟨?_, hdata⟩
      rw [List.filter_append, List.filter_append, hviolations, hviolations']

end

mutual

theorem passLink_eased {pass : Pass} : ∀ {l : Link} {lead name : String}
    {parameters : Option Source} {data other : Entries Value} {r : Outcome},
    EasedUnder (fun _ => True) data other →
      passLink g pass lead parameters name l data = .ok r →
      ∃ r', passLink g pass lead parameters name l other = .ok r' ∧
        EasedUnder (fun _ => True) r.data r'.data
  | .stage c, lead, name, parameters, data, other, r, h, hr => by
      rw [passLink] at hr ⊢
      obtain ⟨found, hfound, hr⟩ := Step.bind_eq_ok.1 hr
      obtain ⟨next, hnext, hr⟩ := Step.bind_eq_ok.1 hr
      obtain ⟨found', hfound'⟩ := h.stageViolations (fun _ _ => trivial) hfound
      obtain ⟨next', hnext', hdata⟩ := h.effectOn (fun _ _ => trivial) hnext
      cases hr
      rw [Step.bind_of_ok hfound', Step.bind_of_ok hnext']
      exact ⟨_, rfl, hdata⟩
  | .chain links, lead, name, parameters, data, other, r, h, hr => by
      rw [passLink] at hr ⊢
      obtain ⟨⟨given, found⟩, hgiven, hr⟩ := Step.bind_eq_ok.1 hr
      obtain ⟨sub, hsub, hr⟩ := Step.bind_eq_ok.1 hr
      obtain ⟨sub', hsub', hdata⟩ := passLinks_eased h hsub
      cases hr
      rw [Step.bind_of_ok hgiven]
      dsimp only
      rw [Step.bind_of_ok hsub']
      exact ⟨_, rfl, hdata⟩

/-- **A pass does not fail on less.** -/
theorem passLinks_eased {pass : Pass} : ∀ {links : List (String × Link)} {lead : String}
    {parameters : Option Source} {data other : Entries Value} {r : Outcome},
    EasedUnder (fun _ => True) data other →
      passLinks g pass lead parameters links data = .ok r →
      ∃ r', passLinks g pass lead parameters links other = .ok r' ∧
        EasedUnder (fun _ => True) r.data r'.data
  | [], lead, parameters, data, other, r, h, hr => by
      rw [passLinks] at hr ⊢
      cases hr
      exact ⟨_, rfl, h⟩
  | (name, l) :: rest, lead, parameters, data, other, r, h, hr => by
      rw [passLinks] at hr ⊢
      obtain ⟨first, hfirst, hr⟩ := Step.bind_eq_ok.1 hr
      obtain ⟨later, hlater, hr⟩ := Step.bind_eq_ok.1 hr
      obtain ⟨first', hfirst', hmiddle⟩ := passLink_eased h hfirst
      obtain ⟨later', hlater', hdata⟩ := passLinks_eased hmiddle hlater
      cases hr
      rw [Step.bind_of_ok hfirst', Step.bind_of_ok hlater']
      exact ⟨_, rfl, hdata⟩

end

/-! ## 6. Checks of a chain -/

/-- What is found about the data that a phase demands, and about this one name. -/
def Violation.isAbout (key : String) (v : Violation) : Bool :=
  v.finding.heading.isInput && v.finding.key? == some key

theorem Violation.within_of_isAbout {key : String} {v : Violation} (h : v.isAbout key = true) :
    v.within (· == key) = true := by
  obtain ⟨hinput, hkey⟩ := Bool.and_eq_true_iff.1 h
  simp [within, hinput, eq_of_beq hkey]

/-- What is not about other names is about this one. -/
theorem Violation.isAbout_of_not_within {key : String} {v : Violation}
    (h : v.within (· != key) = false) : v.isAbout key = true := by
  obtain ⟨hinput, hkey⟩ := Bool.or_eq_false_iff.1 h
  cases hname : v.finding.key? with
  | none =>
      rw [hname] at hkey
      cases hkey
  | some name =>
      have hnot : (name != key) = false := by simpa [hname] using hkey
      simpa [isAbout, hname] using ⟨by simpa using hinput, by simpa using hnot⟩

/-- What is about a name is among what is not about others. -/
theorem filter_isAbout (key : String) (vs : List Violation) :
    (vs.filter (·.within (· == key))).filter (·.isAbout key) = vs.filter (·.isAbout key) := by
  rw [List.filter_filter]
  refine List.filter_congr fun v _ => ?_
  cases h : v.isAbout key with
  | false => rfl
  | true => rw [Violation.within_of_isAbout h]; rfl

namespace Chain

theorem pass_within {c : Chain} {p : Pass} {names : String → Bool} {parameters : Option Source}
    {r r' : Outcome} (h : SameUnder (names · = true) data other)
    (hr : c.pass g p parameters data = .ok r) (hr' : c.pass g p parameters other = .ok r') :
    r.violations.filter (·.within names) = r'.violations.filter (·.within names) := by
  obtain ⟨sub, hsub, rfl⟩ := pass_eq_ok.1 hr
  obtain ⟨sub', hsub', rfl⟩ := pass_eq_ok.1 hr'
  rw [List.filter_append, List.filter_append, (passLinks_within h hsub hsub').1]

theorem pass_eased {c : Chain} {p : Pass} {parameters : Option Source} {r : Outcome}
    (h : EasedUnder (fun _ => True) data other) (hr : c.pass g p parameters data = .ok r) :
    ∃ r', c.pass g p parameters other = .ok r' := by
  obtain ⟨sub, hsub, -⟩ := pass_eq_ok.1 hr
  obtain ⟨sub', hsub', _⟩ := passLinks_eased h hsub
  exact ⟨_, pass_eq_ok.2 ⟨sub', hsub', rfl⟩⟩

variable {c : Chain} {p : Pass} {key : String} {parameters : Option Source}

/-- **Two passes say the same about a name that has the same value.** -/
theorem pass_isAbout {r r' : Outcome} (h : valueAt data key = valueAt other key)
    (hr : c.pass g p parameters data = .ok r) (hr' : c.pass g p parameters other = .ok r') :
    r.violations.filter (·.isAbout key) = r'.violations.filter (·.isAbout key) := by
  have hsame : SameUnder ((· == key) · = true) data other := by
    intro name hname
    rw [eq_of_beq hname]
    exact h
  rw [← filter_isAbout, pass_within hsame hr hr', filter_isAbout]

/-- **A pass that found nothing finds nothing but about the name that is deleted.** -/
theorem pass_erase {r : Outcome} (hr : c.pass g p parameters data = .ok r)
    (hclean : r.violations = []) (key : String) :
    ∃ r', c.pass g p parameters (data.erase key) = .ok r' ∧
      ∀ v ∈ r'.violations, v.isAbout key = true := by
  have heased : EasedUnder (fun _ => True) data (data.erase key) := by
    intro name _
    rw [valueAt_erase]
    split
    · exact Or.inr .absent
    · exact Or.inl rfl
  have hsame : SameUnder ((· != key) · = true) data (data.erase key) := by
    intro name hname
    rw [valueAt_erase, if_neg (bne_iff_ne.1 hname)]
  obtain ⟨r', hr'⟩ := pass_eased heased hr
  refine ⟨r', hr', fun v hv => Violation.isAbout_of_not_within ?_⟩
  have hnone : r'.violations.filter (·.within (· != key)) = [] := by
    rw [← pass_within hsame hr hr', hclean]
    rfl
  exact Bool.eq_false_iff.2 (List.filter_eq_nil_iff.1 hnone v hv)

/-- **What the checks of a chain say about a name of the data comes from what stands under that name.**
    On two tables that have the same value under it they say the same about it; and where they say
    nothing, they return without the name, too, and what they say then is about it. -/
theorem findings_local (g : Graph) (c : Chain) (key : String) :
    (∀ data other : Entries Value, valueAt data key = valueAt other key →
      (∀ fitted vs ws, c.checkTransform g data fitted = .ok vs →
        c.checkTransform g other fitted = .ok ws →
          vs.filter (·.isAbout key) = ws.filter (·.isAbout key)) ∧
      ∀ parameters vs ws, c.checkFit g data parameters = .ok vs →
        c.checkFit g other parameters = .ok ws →
          vs.filter (·.isAbout key) = ws.filter (·.isAbout key)) ∧
    ∀ data : Entries Value,
      (∀ fitted, c.checkTransform g data fitted = .ok [] →
        ∃ vs, c.checkTransform g (data.erase key) fitted = .ok vs ∧
          ∀ v ∈ vs, v.isAbout key = true) ∧
      ∀ parameters, c.checkFit g data parameters = .ok [] →
        ∃ vs, c.checkFit g (data.erase key) parameters = .ok vs ∧
          ∀ v ∈ vs, v.isAbout key = true := by
  refine ⟨fun data other h => ⟨fun fitted vs ws hvs hws => ?_, fun parameters vs ws hvs hws => ?_⟩,
    fun data => ⟨fun fitted hnone => ?_, fun parameters hnone => ?_⟩⟩
  · obtain ⟨r, hr, rfl⟩ := checkTransform_eq_ok.1 hvs
    obtain ⟨r', hr', rfl⟩ := checkTransform_eq_ok.1 hws
    exact pass_isAbout h hr hr'
  · obtain ⟨r, hr, rfl⟩ := checkFit_eq_ok.1 hvs
    obtain ⟨r', hr', rfl⟩ := checkFit_eq_ok.1 hws
    exact pass_isAbout h hr hr'
  · obtain ⟨r, hr, hclean⟩ := checkTransform_eq_ok.1 hnone
    obtain ⟨r', hr', habout⟩ := pass_erase hr hclean key
    exact ⟨_, checkTransform_eq_ok.2 ⟨r', hr', rfl⟩, habout⟩
  · obtain ⟨r, hr, hclean⟩ := checkFit_eq_ok.1 hnone
    obtain ⟨r', hr', habout⟩ := pass_erase hr hclean key
    exact ⟨_, checkFit_eq_ok.2 ⟨r', hr', rfl⟩, habout⟩

/-- A nested chain that counts rows and drops a note, and a stage behind it that reads the rows. -/
def countingSample : Chain :=
  ⟨[("prep", .chain [("count", .stage {
      transformRequires := [("rows", .scalar .integer), ("note", .scalar .string)],
      produced := [("rows", .set (.scalar .string)), ("note", .drop)] })]),
    ("model", .stage { transformRequires := [("rows", .scalar .string)] })]⟩

/-- Two tables with the same text for the rows and different notes: what is found about the rows is
    the same, though for one of them there is something to be said about its note. Without the rows
    a clean table has a finding, and it is about the rows. -/
theorem findings_local_counting :
    (∃ vs ws, countingSample.checkTransform {} [("rows", .text "r"), ("note", .text "n")] [] =
        .ok vs ∧ countingSample.checkTransform {} [("note", .whole 5), ("rows", .text "r")] [] =
        .ok ws ∧ vs.length = 1 ∧ ws.length = 2 ∧
        vs.filter (·.isAbout "rows") = ws.filter (·.isAbout "rows")) ∧
    countingSample.checkTransform {} [("rows", .whole 3), ("note", .text "n")] [] = .ok [] ∧
    ∃ vs, countingSample.checkTransform {}
        (Entries.erase [("rows", .whole 3), ("note", .text "n")] "rows") [] = .ok vs ∧
      ∀ v ∈ vs, v.isAbout "rows" = true := by
  obtain ⟨⟨vs, hvs, hone⟩, ⟨ws, hws, htwo⟩, hclean⟩ :
      (∃ vs, countingSample.checkTransform {} [("rows", .text "r"), ("note", .text "n")] [] =
        .ok vs ∧ vs.length = 1) ∧
      (∃ ws, countingSample.checkTransform {} [("note", .whole 5), ("rows", .text "r")] [] =
        .ok ws ∧ ws.length = 2) ∧
      countingSample.checkTransform {} [("rows", .whole 3), ("note", .text "n")] [] = .ok [] := by
    simp [countingSample, checkTransform, pass, passLinks, passLink, stageViolations, checkSchema,
      checkKey, nestedParameters, unknownStages, effectOn, Contract.checkTransform,
      Contract.fitMissing, Contract.needsFit, Production.applyTo, Production.apply, Entries.find?,
      Entries.put, Entries.has, Entries.replace, Entries.erase, Graph.observe, Graph.observeAt,
      leafType, TypeSpec.diagnose]
  have hsame : valueAt [("rows", .text "r"), ("note", .text "n")] "rows" =
      valueAt [("note", .whole 5), ("rows", .text "r")] "rows" := rfl
  have hlocal := findings_local {} countingSample "rows"
  exact ⟨⟨vs, ws, hvs, hws, hone, htwo, (hlocal.1 _ _ hsame).1 [] vs ws hvs hws⟩, hclean,
    (hlocal.2 _).1 [] hclean⟩

end Chain

end SchemaFlow
