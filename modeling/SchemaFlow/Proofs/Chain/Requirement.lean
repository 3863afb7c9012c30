import SchemaFlow.Proofs.Chain.Nesting

/-!
# What a chain requires and what it misses

What a chain requires is worked out from its contracts alone, by a fold over the tables of types
that its stages make. The transform pass does not know of it: it checks data, stage by stage, and
reports the names that it misses. Both come down to one question about each name, which demand on it
is the first that nothing has met (`firstUnmet`), and for both a name is there or not according to
the last production of it alone (`presentBehind`, `lastProduction`).

* `find?_requirement`: a name is required with the type of the first unmet demand on it.
* `Walk.firstMissing_demand`: it is first missed there, and with that type.
* `Chain.requirement_exact`: what is required is exactly what is missed.
-/

namespace SchemaFlow

/-! ## 1. What is there behind a row of stages -/

/-- Whether a table of data has a value under a name; an absent value is none. -/
def holds (data : Entries Value) (key : String) : Bool := !(valueAt data key).isAbsent

/-- Whether a name has a value behind what is produced of it, if anything is. -/
def presentBehind : Option Production → Bool → Bool
  | none, before => before
  | some .drop, _ => false
  | some _, _ => true

/-- The last production that a row of stages has for a name. -/
def lastProduction (ls : List (String × Contract)) (key : String) : Option Production :=
  ls.reverse.findSome? fun l => l.2.produced.find? key

theorem presentBehind_or (late early : Option Production) (before : Bool) :
    presentBehind (late.or early) before = presentBehind late (presentBehind early before) := by
  cases late with
  | none => rfl
  | some p => cases p <;> rfl

theorem lastProduction_append (as bs : List (String × Contract)) (key : String) :
    lastProduction (as ++ bs) key = (lastProduction bs key).or (lastProduction as key) := by
  unfold lastProduction
  rw [List.reverse_append, List.findSome?_append]

theorem lastProduction_cons (l : String × Contract) (ls : List (String × Contract))
    (key : String) :
    lastProduction (l :: ls) key = (lastProduction ls key).or (l.2.produced.find? key) := by
  have hone : lastProduction [l] key = l.2.produced.find? key := by
    unfold lastProduction
    rw [List.reverse_singleton, List.findSome?_cons]
    cases l.2.produced.find? key <;> rfl
  rw [← hone]
  exact lastProduction_append [l] ls key

/-- A name is gone behind productions when the last of them drops it, or when there is none and it
    was not there before. -/
theorem presentBehind_eq_false_iff {o : Option Production} {before : Bool} :
    presentBehind o before = false ↔ o = some .drop ∨ (o = none ∧ before = false) := by
  cases o with
  | none => simp [presentBehind]
  | some p => cases p <;> simp [presentBehind]

variable {g : Graph} {key : String}

theorem Production.isSome_applyTo {p : Production} {v : Value} {o : Option TypeSpec}
    (h : p.applyTo g v = .ok o) (before : Bool) : o.isSome = presentBehind (some p) before := by
  cases p with
  | modify fields =>
      obtain ⟨fs, _, h⟩ := Step.bind_eq_ok.1 h
      cases h
      rfl
  | _ =>
      cases h
      rfl

/-- What is produced of a name is stored under it, and nothing else is touched. -/
theorem holds_stored (data : Entries Value) (name : String) (o : Option TypeSpec) :
    holds (match o with
      | some t => data.put name (.type t)
      | none => data.erase name) key = if key = name then o.isSome else holds data key := by
  unfold holds valueAt
  cases o with
  | none =>
      dsimp only
      rw [Entries.find?_erase]
      split <;> rfl
  | some t =>
      dsimp only
      rw [Entries.find?_put]
      split <;> rfl

/-- **Behind a stage a name is there according to what the stage produces of it.** -/
theorem holds_effectOn : ∀ {ps : Produced} {data next : Entries Value}, ps.Distinct →
    effectOn g ps data = .ok next →
      holds next key = presentBehind (ps.find? key) (holds data key)
  | [], _, _, _, h => by
      cases h
      rfl
  | (name, p) :: ps, data, next, hd, h => by
      obtain ⟨hname, hd⟩ := Entries.distinct_cons_iff.1 hd
      rw [effectOn] at h
      obtain ⟨o, ho, h⟩ := Step.bind_eq_ok.1 h
      have hnext := (holds_effectOn hd h).trans (congrArg _ (holds_stored data name o))
      rw [hnext, Entries.find?_cons]
      by_cases hk : name = key
      · subst hk
        rw [hname, if_pos rfl, if_pos rfl]
        exact Production.isSome_applyTo ho _
      · rw [if_neg hk, if_neg fun e => hk e.symm]

theorem has_applyAll {ps : Produced} (hd : ps.Distinct) (made : Entries TypeSpec) :
    (applyAll ps made).has key = presentBehind (ps.find? key) (made.has key) := by
  unfold Entries.has
  rw [find?_applyAll key made hd]
  cases ps.find? key with
  | none => rfl
  | some p => cases p <;> rfl

/-- **Behind a row of stages a name is there according to its last production.** -/
theorem holds_dataBehind : ∀ {ls : List (String × Contract)} {data last : Entries Value},
    (∀ l ∈ ls, l.2.WellFormed) → dataBehind g ls data = .ok last →
      holds last key = presentBehind (lastProduction ls key) (holds data key)
  | [], _, _, _, h => by
      cases h
      rfl
  | (stage, c) :: ls, data, last, hls, h => by
      obtain ⟨hc, hls⟩ := List.forall_mem_cons.1 hls
      rw [dataBehind] at h
      obtain ⟨next, hnext, h⟩ := Step.bind_eq_ok.1 h
      rw [holds_dataBehind hls h, holds_effectOn hc.produced.distinct hnext, lastProduction_cons,
        presentBehind_or]

/-! ## 2. Unmet demands -/

/-- The first demand of a row of stages on a name that is not there: `present` says whether it is
    there in front of the row. -/
def firstUnmet (demand : Contract → Schema) (key : String) :
    List (String × Contract) → Bool → Option TypeSpec
  | [], _ => none
  | l :: ls, present =>
    (if present then none else (demand l.2).find? key).or
      (firstUnmet demand key ls (presentBehind (l.2.produced.find? key) present))

section Unmet

variable {demand : Contract → Schema}

/-- A demand on a name that is not there is not met. -/
theorem isSome_firstUnmet : ∀ {ls : List (String × Contract)} {present : Bool} {i : Nat}
    {l : String × Contract} {t : TypeSpec}, ls[i]? = some l → (demand l.2).find? key = some t →
      presentBehind (lastProduction (ls.take i) key) present = false →
      (firstUnmet demand key ls present).isSome = true
  | [], _, _, _, _, hi, _, _ => by simp at hi
  | l :: ls, present, 0, _, t, hi, ht, hgone => by
      obtain rfl := Option.some.inj hi
      have hnew : present = false := hgone
      rw [firstUnmet, hnew, if_neg Bool.false_ne_true, ht]
      rfl
  | l :: ls, present, i + 1, _, t, hi, ht, hgone => by
      have hi : ls[i]? = some _ := hi
      rw [List.take_succ_cons, lastProduction_cons, presentBehind_or] at hgone
      have hrest := isSome_firstUnmet hi ht hgone
      rw [firstUnmet, Option.isSome_or, hrest, Bool.or_true]

theorem find?_addDemand {made : Entries TypeSpec} : ∀ {more required : Schema},
    (addDemand made more required).find? key =
      (required.find? key).or (if made.has key then none else more.find? key)
  | [], required => by
      rw [addDemand]
      split <;> exact (Option.or_none).symm
  | (name, t) :: more, required => by
      rw [addDemand, find?_addDemand, Entries.find?_cons]
      by_cases hk : name = key
      · subst hk
        rw [if_pos rfl]
        cases hmade : made.has name with
        | true => simp
        | false =>
            cases hrequired : required.find? name with
            | some u => simp [Entries.has, hrequired]
            | none => simp [Entries.has, hrequired, Entries.find?_insert]
      · rw [if_neg hk]
        split
        · rfl
        · rw [Entries.find?_insert, if_neg fun e => hk e.symm]

theorem find?_requirementFrom : ∀ {ls : List (String × Contract)} {made : Entries TypeSpec}
    {required : Schema}, (∀ l ∈ ls, l.2.WellFormed) →
      (requirementFrom demand (ls.map Prod.snd) made required).find? key =
        (required.find? key).or (firstUnmet demand key ls (made.has key))
  | [], _, required, _ => (Option.or_none).symm
  | l :: ls, made, required, hls => by
      obtain ⟨hl, hls⟩ := List.forall_mem_cons.1 hls
      rw [List.map_cons, requirementFrom, find?_requirementFrom hls, find?_addDemand,
        has_applyAll hl.produced.distinct, Option.or_assoc, firstUnmet]

/-- **A name is demanded from outside with the type of the first unmet demand on it.** -/
theorem find?_requirement {ls : List (String × Contract)} (hls : ∀ l ∈ ls, l.2.WellFormed) :
    (requirement demand (ls.map Prod.snd)).find? key = firstUnmet demand key ls false := by
  rw [requirement, find?_requirementFrom hls]
  rfl

end Unmet

theorem Chain.contracts_stagesOf (ls : List (String × Contract)) :
    Chain.contracts ⟨stagesOf ls⟩ = ls.map Prod.snd := by
  rw [contracts, namedContracts_stagesOf]

theorem Chain.find?_requiredInput {ls : List (String × Contract)}
    (hls : ∀ l ∈ ls, l.2.WellFormed) : (Chain.requiredInput ⟨stagesOf ls⟩).find? key =
      firstUnmet Contract.transformRequires key ls false := by
  rw [requiredInput, contracts_stagesOf, find?_requirement hls]

/-! ## 3. Missed names -/

/-- A violation that reports a name as missing. -/
def Violation.isMissing (key : String) (v : Violation) : Bool :=
  v.finding.kind == "MissingKey" && v.finding.key? == some key

theorem Violation.isMissing_iff {v : Violation} :
    v.isMissing key = true ↔ ∃ heading t, v.finding = .missing heading key t := by
  unfold Violation.isMissing
  rw [Bool.and_eq_true, beq_iff_eq, beq_iff_eq]
  constructor
  · intro h
    obtain ⟨hkind, hkey⟩ := h
    cases hf : v.finding with
    | missing heading k t =>
        rw [hf] at hkey
        obtain rfl : k = key := Option.some.inj hkey
        exact ⟨heading, t, rfl⟩
    | misfit _ _ _ _ m =>
        rw [hf] at hkind
        cases m <;> simp [Finding.kind] at hkind
    | _ =>
        rw [hf] at hkind
        simp [Finding.kind] at hkind
  · rintro ⟨heading, t, hf⟩
    rw [hf]
    exact ⟨rfl, rfl⟩

/-- The type under which a name is first reported as missing. -/
def firstMissing (key : String) (vs : List Violation) : Option TypeSpec :=
  (vs.find? fun v => v.isMissing key).bind fun v => v.finding.expected?

theorem firstMissing_eq_some_iff {vs : List Violation} {t : TypeSpec} :
    firstMissing key vs = some t ↔
      ∃ v, vs.find? (fun v => v.isMissing key) = some v ∧ v.finding.expected? = some t :=
  Option.bind_eq_some_iff

theorem firstMissing_cons (v : Violation) (vs : List Violation) :
    firstMissing key (v :: vs) =
      if v.isMissing key then v.finding.expected? else firstMissing key vs := by
  unfold firstMissing
  rw [List.find?_cons]
  cases v.isMissing key <;> rfl

theorem firstMissing_append : ∀ vs ws : List Violation,
    firstMissing key (vs ++ ws) = (firstMissing key vs).or (firstMissing key ws)
  | [], _ => rfl
  | v :: vs, ws => by
      rw [List.cons_append, firstMissing_cons, firstMissing_cons, firstMissing_append vs ws]
      cases hv : v.isMissing key with
      | false => rfl
      | true =>
          obtain ⟨heading, t, hf⟩ := Violation.isMissing_iff.1 hv
          rw [if_pos rfl, if_pos rfl, hf]
          rfl

/-- A name that no violation reports as missing is not first missed anywhere. -/
theorem firstMissing_eq_none {vs : List Violation} (h : ∀ v ∈ vs, v.isMissing key = false) :
    firstMissing key vs = none := by
  have hnone : vs.find? (fun v => v.isMissing key) = none := by
    rw [List.find?_eq_none]
    intro v hv
    rw [h v hv]
    exact Bool.false_ne_true
  rw [firstMissing, hnone, Option.bind_none]

theorem isSome_firstMissing {vs : List Violation} {v : Violation} (hv : v ∈ vs)
    (hmissing : v.isMissing key = true) : (firstMissing key vs).isSome = true := by
  obtain ⟨as, bs, rfl⟩ := List.append_of_mem hv
  obtain ⟨heading, t, hf⟩ := Violation.isMissing_iff.1 hmissing
  have hhead : firstMissing key (v :: bs) = some t := by
    rw [firstMissing_cons, if_pos hmissing, hf]
    rfl
  rw [firstMissing_append, hhead, Option.isSome_or, Option.isSome_some, Bool.or_true]

/-- **The verdict on one name says that it is missing when it is not there**, and says so of no
    other name. -/
theorem Verdict.firstMissing {heading : Heading} {data : Entries Value} {name : String}
    {t : TypeSpec} {found : Option Finding}
    (h : Verdict g heading (valueAt data name) name t found) (stage : Option String) :
    firstMissing key (found.toList.map fun f => ⟨stage, f⟩) =
      if name = key ∧ holds data name = false then some t else none := by
  unfold Verdict at h
  cases habsent : (valueAt data name).isAbsent with
  | true =>
      rw [habsent, if_pos rfl] at h
      have hholds : holds data name = false := by rw [holds, habsent, Bool.not_true]
      have hmissing : Violation.isMissing key ⟨stage, .missing heading name t⟩ =
          decide (name = key) := by
        rw [Bool.eq_iff_iff, Violation.isMissing_iff, decide_eq_true_eq]
        constructor
        · rintro ⟨_, _, hf⟩
          exact (Finding.missing.inj hf).2.1
        · rintro rfl
          exact ⟨heading, t, rfl⟩
      rw [h, Option.toList_some, List.map_singleton, firstMissing_cons, hmissing, hholds]
      by_cases hk : name = key
      · rw [if_pos (decide_eq_true hk), if_pos ⟨hk, rfl⟩]
        rfl
      · rw [if_neg (by simpa using hk), if_neg fun h => hk h.1]
        rfl
  | false =>
      rw [habsent, if_neg Bool.false_ne_true] at h
      have hholds : holds data name = true := by rw [holds, habsent, Bool.not_false]
      obtain ⟨u, _, hfound⟩ := h
      rw [hholds, if_neg fun h => Bool.noConfusion h.2]
      refine firstMissing_eq_none fun v hv => ?_
      -- what is found about a name that is there is a misfit
      obtain ⟨f, hf, rfl⟩ := List.mem_map.1 hv
      rw [Option.mem_toList, hfound] at hf
      obtain ⟨m, _, rfl⟩ := Option.map_eq_some_iff.1 hf
      cases m <;> rfl

/-- **A check misses a name when it is declared and not there.** -/
theorem firstMissing_checkSchema {stage : Option String} {heading : Heading}
    {data : Entries Value} : ∀ {s : Schema} {vs : List Violation},
    checkSchema g stage heading data s = .ok vs →
      firstMissing key vs = if holds data key then none else s.find? key
  | [], _, h => by
      cases h
      rw [Entries.find?_nil, ite_self]
      rfl
  | (name, t) :: s, vs, h => by
      rw [checkSchema] at h
      obtain ⟨f, hf, h⟩ := Step.bind_eq_ok.1 h
      obtain ⟨later, hlater, h⟩ := Step.bind_eq_ok.1 h
      have hname : firstMissing key (f.toList.map fun f => ⟨stage, f⟩) =
          if name = key ∧ holds data name = false then some t else none :=
        (checkKey_iff.1 hf).firstMissing stage
      have hvs : vs = f.toList.map (fun f => (⟨stage, f⟩ : Violation)) ++ later := by
        cases h
        cases f <;> rfl
      rw [hvs, firstMissing_append, hname, firstMissing_checkSchema hlater, Entries.find?_cons]
      by_cases hk : name = key
      · subst hk
        cases holds data name <;> simp
      · rw [if_neg fun h => hk h.1, if_neg hk, Option.none_or]

/-- A stage misses what the phase demands of the data and what is not there. -/
theorem Pass.firstMissing_demand {pass : Pass} {stage : String} {c : Contract}
    {data : Entries Value} {vs : List Violation} (h : pass.check g stage c data = .ok vs) :
    firstMissing key vs =
      if holds data key then none else (c.demand pass.phase).2.find? key := by
  obtain ⟨input, hinput, rfl⟩ := Pass.check_eq_ok.1 h
  -- what is said about the state is about no name
  have hstate : firstMissing key (pass.unfitted stage c) = none := by
    refine firstMissing_eq_none fun v hv => ?_
    rw [Pass.mem_unfitted hv]
    rfl
  rw [firstMissing_append, hstate, Option.or_none]
  exact firstMissing_checkSchema hinput

theorem Pass.firstMissing_check {pass : Pass} (hphase : pass.phase = .transform) {stage : String}
    {c : Contract} {data : Entries Value} {vs : List Violation}
    (h : pass.check g stage c data = .ok vs) :
    firstMissing key vs = if holds data key then none else c.transformRequires.find? key := by
  rw [Pass.firstMissing_demand h, hphase]
  rfl

/-- **A walk misses a name at the first unmet demand on it.** -/
theorem Walk.firstMissing_demand {pass : Pass} {ls : List (String × Contract)}
    {data last : Entries Value} {founds : List (List Violation)}
    (h : Walk g pass ls data founds last) (hls : ∀ l ∈ ls, l.2.WellFormed) :
    SchemaFlow.firstMissing key founds.flatten =
      firstUnmet (fun c => (c.demand pass.phase).2) key ls (holds data key) := by
  induction h with
  | nil _ => rfl
  | @cons stage c rest data next _ found later hcheck hnext _ ih =>
      obtain ⟨hc, hls⟩ := List.forall_mem_cons.1 hls
      rw [List.flatten_cons, firstMissing_append, Pass.firstMissing_demand hcheck, ih hls,
        holds_effectOn hc.produced.distinct hnext, firstUnmet]

theorem Walk.firstMissing {pass : Pass} (hphase : pass.phase = .transform)
    {ls : List (String × Contract)} {data last : Entries Value} {founds : List (List Violation)}
    (h : Walk g pass ls data founds last) (hls : ∀ l ∈ ls, l.2.WellFormed) :
    firstMissing key founds.flatten =
      firstUnmet Contract.transformRequires key ls (holds data key) := by
  rw [h.firstMissing_demand hls, hphase]
  rfl

/-- Where a walk misses a name, the stages before have left it without a value. -/
theorem Walk.gone_of_missing {pass : Pass} (hphase : pass.phase = .transform)
    {ls : List (String × Contract)} {data last : Entries Value} {founds : List (List Violation)}
    (h : Walk g pass ls data founds last) (hls : ∀ l ∈ ls, l.2.WellFormed) {v : Violation}
    (hv : v ∈ founds.flatten) (hmissing : v.isMissing key = true) :
    ∃ i stage c t, ls[i]? = some (stage, c) ∧ v.stage = some stage ∧
      c.transformRequires.find? key = some t ∧
      presentBehind (lastProduction (ls.take i) key) (holds data key) = false := by
  obtain ⟨found, hfound, hv⟩ := List.mem_flatten.1 hv
  obtain ⟨i, hi, rfl⟩ := List.getElem_of_mem hfound
  have hlt : i < ls.length := h.length_eq ▸ hi
  obtain ⟨working, found, hworking, hget, hcheck⟩ :=
    h.at_index (List.getElem?_eq_getElem hlt)
  obtain rfl : founds[i] = found := Option.some.inj ((List.getElem?_eq_getElem hi).symm.trans hget)
  have hbehind : holds working key = presentBehind (lastProduction (ls.take i) key)
      (holds data key) :=
    holds_dataBehind (fun l hl => hls l (List.mem_of_mem_take hl)) hworking
  have hfirst := isSome_firstMissing hv hmissing
  rw [Pass.firstMissing_check hphase hcheck] at hfirst
  cases hgone : holds working key with
  | true =>
      rw [hgone, if_pos rfl] at hfirst
      cases hfirst
  | false =>
      rw [hgone, if_neg Bool.false_ne_true] at hfirst
      obtain ⟨t, ht⟩ := Option.isSome_iff_exists.1 hfirst
      exact ⟨i, ls[i].1, ls[i].2, t, List.getElem?_eq_getElem hlt,
        Pass.stage_of_mem_check hcheck v hv, ht, hbehind.symm.trans hgone⟩

/-! ## 4. Requirement and check -/

/-- **What a chain of stages requires is exactly what its transform pass misses.**

    * A name is required with a type just when a check against no declared types at all reports it
      as missing, and first so with that type.
    * A check of data that has no value for a required name reports the name as missing. Such a check
      returns whenever no observation fails.
    * Where every required name has a value, a name is missing at a stage only because the last
      production of it before the stage is a drop. -/
theorem Chain.requirement_exact {g : Graph} {ls : List (String × Contract)}
    (hc : Chain.WellFormed ⟨stagesOf ls⟩) :
    (∃ vs, Chain.checkStatic g ⟨stagesOf ls⟩ [] .transform = .ok vs ∧
      ∀ key t, (Chain.requiredInput ⟨stagesOf ls⟩).find? key = some t ↔
        ∃ v, vs.find? (fun v => v.isMissing key) = some v ∧ v.finding.expected? = some t) ∧
    (∀ (data : Entries Value) (fitted : List String),
      (g.Answers (demandsOf .transform ls) data →
        ∃ vs, Chain.checkTransform g ⟨stagesOf ls⟩ data fitted = .ok vs) ∧
      ∀ vs, Chain.checkTransform g ⟨stagesOf ls⟩ data fitted = .ok vs →
        (∀ key, (Chain.requiredInput ⟨stagesOf ls⟩).has key = true → holds data key = false →
          ∃ v ∈ vs, v.isMissing key = true) ∧
        ((∀ key, (Chain.requiredInput ⟨stagesOf ls⟩).has key = true → holds data key = true) →
          ∀ v ∈ vs, ∀ key, v.isMissing key = true →
            ∃ i stage c, ls[i]? = some (stage, c) ∧ v.stage = some stage ∧
              lastProduction (ls.take i) key = some .drop)) := by
  have hleaves : Chain.leaves ⟨stagesOf ls⟩ = ls := linkLeaves_stagesOf ls
  have hls : ∀ l ∈ ls, l.2.WellFormed := fun l hl => hc.of_mem_leaves (hleaves.symm ▸ hl)
  refine ⟨?_, fun data fitted => ⟨fun hdata => ?_, fun vs hvs => ⟨fun key hkey hgone => ?_,
    fun hall v hv key hmissing => ?_⟩⟩⟩
  · -- no declared types: no name is there in front of the row
    obtain ⟨founds, last, hwalk⟩ : ∃ founds last,
        Walk g { phase := .transform } ls [] founds last :=
      exists_walk_of_answers hls (Graph.Answers.typed g _ [])
    refine ⟨founds.flatten, Chain.violations_of_walk (hleaves.symm ▸ hwalk), fun key t => ?_⟩
    rw [Chain.find?_requiredInput hls, ← firstMissing_eq_some_iff, hwalk.firstMissing rfl hls]
    rfl
  · obtain ⟨founds, last, hwalk⟩ : ∃ founds last,
        Walk g { phase := .transform, fitted := some fitted } ls data founds last :=
      exists_walk_of_answers hls hdata
    exact ⟨founds.flatten, Chain.violations_of_walk (hleaves.symm ▸ hwalk)⟩
  · obtain ⟨founds, last, hwalk, rfl⟩ := Chain.walk_of_pass hvs
    rw [hleaves] at hwalk
    have hfirst : firstMissing key founds.flatten =
        firstUnmet Contract.transformRequires key ls (holds data key) :=
      hwalk.firstMissing rfl hls
    rw [hgone, ← Chain.find?_requiredInput hls] at hfirst
    obtain ⟨t, ht⟩ := Option.isSome_iff_exists.1 hkey
    rw [ht, firstMissing_eq_some_iff] at hfirst
    obtain ⟨v, hv, _⟩ := hfirst
    exact ⟨v, List.mem_of_find?_eq_some hv, List.find?_some hv⟩
  · obtain ⟨founds, last, hwalk, rfl⟩ := Chain.walk_of_pass hvs
    rw [hleaves] at hwalk
    obtain ⟨i, stage, c, t, hi, hstage, ht, hgone⟩ := hwalk.gone_of_missing rfl hls hv hmissing
    refine ⟨i, stage, c, hi, hstage, ?_⟩
    rcases presentBehind_eq_false_iff.1 hgone with hdrop | ⟨hnone, hbefore⟩
    · exact hdrop
    · -- nothing before produces the name, so the chain requires it
      have hunmet : (firstUnmet Contract.transformRequires key ls false).isSome = true :=
        isSome_firstUnmet hi ht (presentBehind_eq_false_iff.2 (.inr ⟨hnone, rfl⟩))
      rw [← Chain.find?_requiredInput hls] at hunmet
      rw [hall key hunmet] at hbefore
      cases hbefore

/-- A row that reads a name, edits another, drops the first, and reads both again. -/
def Chain.rereadingSample : List (String × Contract) :=
  [("load", {
      transformRequires := [("raw", .scalar .string)]
      produced := [("meta", .modify [("rows", .set (.scalar .integer))]), ("raw", .drop)] }),
    ("clean", {
      transformRequires := [("meta", .record [("rows", .scalar .integer)] none),
        ("limit", .scalar .float)]
      produced := [("limit", .drop)] }),
    ("score", {
      transformRequires := [("raw", .scalar .boolean), ("limit", .scalar .integer)]
      fittedState := [("mean", .scalar .float)] })]

/-- The sample requires the two names that it does not make, each with the type of its first use. It
    misses one of them in data without it, and in data with both it misses what it has dropped. -/
theorem Chain.requirement_exact_rereading :
    (∃ vs, Chain.checkStatic {} ⟨stagesOf rereadingSample⟩ [] .transform = .ok vs ∧
      ∃ v, vs.find? (fun v => v.isMissing "limit") = some v ∧
        v.finding.expected? = some (.scalar .float)) ∧
    (∃ vs, Chain.checkTransform {} ⟨stagesOf rereadingSample⟩ [("raw", .text "none")] [] = .ok vs ∧
      ∃ v ∈ vs, v.isMissing "limit" = true) ∧
    ∃ vs, Chain.checkTransform {} ⟨stagesOf rereadingSample⟩
        [("raw", .text "none"), ("limit", .null)] [] = .ok vs ∧
      ∀ v ∈ vs, ∀ key, v.isMissing key = true →
        ∃ i stage c, rereadingSample[i]? = some (stage, c) ∧ v.stage = some stage ∧
          lastProduction (rereadingSample.take i) key = some .drop := by
  have hc : Chain.WellFormed ⟨stagesOf rereadingSample⟩ := by decide
  have hrequired : Chain.requiredInput ⟨stagesOf rereadingSample⟩ =
      [("raw", .scalar .string), ("limit", .scalar .float)] := rfl
  have hobservable : ∀ e ∈ ([("raw", .text "none"), ("limit", .null)] : Entries Value),
      Graph.Observable {} e.2 := by
    simp only [List.forall_mem_cons]
    exact ⟨Graph.observable_text _ _, Graph.observable_null _, fun _ h => absurd h List.not_mem_nil⟩
  obtain ⟨⟨vs, hvs, hstatic⟩, hdata⟩ := Chain.requirement_exact (g := {}) hc
  obtain ⟨hreturns, hmissed⟩ := hdata [("raw", .text "none")] []
  obtain ⟨hreturns', hmissed'⟩ := hdata [("raw", .text "none"), ("limit", .null)] []
  obtain ⟨ws, hws⟩ := hreturns (Graph.Answers.of_observable fun e he =>
    hobservable e (List.mem_cons.2 (.inl (List.mem_singleton.1 he))))
  obtain ⟨ws', hws'⟩ := hreturns' (Graph.Answers.of_observable hobservable)
  refine ⟨⟨vs, hvs, (hstatic "limit" (.scalar .float)).1 ?_⟩,
    ⟨ws, hws, (hmissed ws hws).1 "limit" ?_ rfl⟩, ws', hws', (hmissed' ws' hws').2 ?_⟩
  · rw [hrequired]
    rfl
  · rw [hrequired]
    rfl
  · intro key hkey
    rw [hrequired] at hkey
    by_cases hraw : "raw" = key
    · subst hraw
      rfl
    · by_cases hlimit : "limit" = key
      · subst hlimit
        rfl
      · rw [Entries.has, Entries.find?_cons, if_neg hraw, Entries.find?_cons, if_neg hlimit] at hkey
        cases hkey

end SchemaFlow
