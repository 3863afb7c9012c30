import SchemaFlow.Chain.Basic
import SchemaFlow.Contract.Check
import SchemaFlow.Proofs.Production.Composition
import SchemaFlow.Proofs.Steps

/-!
# Well-formed contracts and chains

What the checked constructors promise of a contract and of a chain of any depth.

* `wellFormed_ofLinks`: a chain that is built from well-formed links is well-formed.
* `Link.WellFormed.contract`: so is the contract that is derived from it, and with it every chain
  that it is nested in.
-/

namespace SchemaFlow

/-! ## 1. Contracts -/

/-- What the checked constructors promise of a contract. -/
structure Contract.WellFormed (c : Contract) : Prop where
  fitRequires : c.fitRequires.WellFormed
  transformRequires : c.transformRequires.WellFormed
  fitParameters : c.fitParameters.WellFormed
  fittedState : c.fittedState.WellFormed
  produced : c.produced.WellFormed

instance (c : Contract) : Decidable c.WellFormed :=
  decidable_of_iff (c.fitRequires.WellFormed ∧ c.transformRequires.WellFormed ∧
      c.fitParameters.WellFormed ∧ c.fittedState.WellFormed ∧ c.produced.WellFormed)
    ⟨fun h => ⟨h.1, h.2.1, h.2.2.1, h.2.2.2.1, h.2.2.2.2⟩,
      fun h => ⟨h.fitRequires, h.transformRequires, h.fitParameters, h.fittedState, h.produced⟩⟩

theorem Contract.WellFormed.demand {c : Contract} (hc : c.WellFormed) (phase : Phase) :
    (c.demand phase).2.WellFormed := by
  cases phase with
  | fit => exact hc.fitRequires
  | transform => exact hc.transformRequires

theorem Contract.WellFormed.demand_distinct {c : Contract} (hc : c.WellFormed) (phase : Phase) :
    Entries.Distinct (c.demand phase).2 := (hc.demand phase).distinct

theorem Contract.WellFormed.fitDemand {c : Contract} (hc : c.WellFormed) :
    c.fitDemand.WellFormed := by
  unfold Contract.fitDemand
  split
  · exact hc.transformRequires
  · exact hc.fitRequires

/-! ## 2. Links and chains -/

/-- A name that a link of a checked chain can have. -/
def LinkName (name : String) : Prop := name ≠ "" ∧ separator ∉ name.toList

instance (name : String) : Decidable (LinkName name) := inferInstanceAs (Decidable (_ ∧ _))

namespace Link

/-- Induction over a link; a chain has the hypothesis for each of its links. -/
@[elab_as_elim]
theorem induction {motive : Link → Prop}
    (stage : ∀ c, motive (.stage c))
    (chain : ∀ links, (∀ e ∈ links, motive e.2) → motive (.chain links))
    (l : Link) : motive l :=
  @Link.rec motive (fun links => ∀ e ∈ links, motive e.2) (fun e => motive e.2)
    stage chain
    (fun _ h => absurd h List.not_mem_nil)
    (fun _ _ he hrest => List.forall_mem_cons.2 ⟨he, hrest⟩)
    (fun _ _ hl => hl) l

/-- What the checked constructors promise of a link. -/
inductive WellFormed : Link → Prop
  | stage {c : Contract} : c.WellFormed → WellFormed (.stage c)
  | chain {links : List (String × Link)} :
      links ≠ [] → Entries.Distinct links → (∀ e ∈ links, LinkName e.1) →
      (∀ e ∈ links, WellFormed e.2) → WellFormed (.chain links)

mutual

/-- Whether a link is well-formed. -/
def isWellFormed : Link → Bool
  | .stage c => decide c.WellFormed
  | .chain links => !links.isEmpty && decide (Entries.Distinct links) && linksWellFormed links

/-- Whether links have proper names and are well-formed. -/
def linksWellFormed : List (String × Link) → Bool
  | [] => true
  | (name, l) :: rest => decide (LinkName name) && isWellFormed l && linksWellFormed rest

end

mutual

theorem isWellFormed_iff : ∀ l : Link, l.isWellFormed = true ↔ l.WellFormed
  | .stage c => by
      rw [isWellFormed, decide_eq_true_eq]
      exact ⟨.stage, fun h => by cases h with | stage hc => exact hc⟩
  | .chain links => by
      rw [isWellFormed, Bool.and_eq_true, Bool.and_eq_true, decide_eq_true_eq,
        linksWellFormed_iff links, Bool.not_eq_true', List.isEmpty_eq_false_iff]
      constructor
      · rintro ⟨⟨hne, hd⟩, hnames, hlinks⟩
        exact .chain hne hd hnames hlinks
      · intro h
        cases h with
        | chain hne hd hnames hlinks => exact ⟨⟨hne, hd⟩, hnames, hlinks⟩

theorem linksWellFormed_iff : ∀ links : List (String × Link),
    linksWellFormed links = true ↔ (∀ e ∈ links, LinkName e.1) ∧ ∀ e ∈ links, e.2.WellFormed
  | [] => by simp [linksWellFormed]
  | (name, l) :: rest => by
      rw [linksWellFormed, Bool.and_eq_true, Bool.and_eq_true, decide_eq_true_eq,
        isWellFormed_iff l, linksWellFormed_iff rest, List.forall_mem_cons, List.forall_mem_cons]
      exact ⟨fun h => ⟨⟨h.1.1, h.2.1⟩, h.1.2, h.2.2⟩, fun h => ⟨⟨h.1.1, h.2.1⟩, h.1.2, h.2.2⟩⟩

end

instance (l : Link) : Decidable l.WellFormed := decidable_of_iff _ (isWellFormed_iff l)

end Link

/-- What the checked constructors promise of a chain. -/
def Chain.WellFormed (c : Chain) : Prop := c.asLink.WellFormed

instance (c : Chain) : Decidable c.WellFormed := inferInstanceAs (Decidable c.asLink.WellFormed)

theorem Chain.wellFormed_iff {c : Chain} :
    c.WellFormed ↔ c.links ≠ [] ∧ Entries.Distinct c.links ∧ (∀ e ∈ c.links, LinkName e.1) ∧
      ∀ e ∈ c.links, e.2.WellFormed := by
  constructor
  · intro h
    cases h with
    | chain hne hd hnames hlinks => exact ⟨hne, hd, hnames, hlinks⟩
  · rintro ⟨hne, hd, hnames, hlinks⟩
    exact .chain hne hd hnames hlinks

/-! ## 3. Derived contracts -/

/-- What insertions keep is kept where the demand of a link is added. -/
theorem addDemand_induction {P : Schema → Prop} {made : Entries TypeSpec} :
    ∀ {demand required : Schema}, (∀ e ∈ demand, ∀ s : Schema, P s → P (s.insert e.1 e.2)) →
      P required → P (addDemand made demand required)
  | [], _, _, hr => hr
  | (key, t) :: rest, required, hinsert, hr => by
      obtain ⟨hkey, hrest⟩ := List.forall_mem_cons.1 hinsert
      rw [addDemand]
      refine addDemand_induction hrest ?_
      split
      · exact hr
      · exact hkey required hr

theorem requirementFrom_induction {P : Schema → Prop} {demand : Contract → Schema} :
    ∀ {cs : List Contract} {made : Entries TypeSpec} {required : Schema},
      (∀ c ∈ cs, ∀ e ∈ demand c, ∀ s : Schema, P s → P (s.insert e.1 e.2)) → P required →
        P (requirementFrom demand cs made required)
  | [], _, _, _, hr => hr
  | c :: cs, _, _, hinsert, hr => by
      obtain ⟨hc, hcs⟩ := List.forall_mem_cons.1 hinsert
      rw [requirementFrom]
      exact requirementFrom_induction hcs (addDemand_induction hc hr)

/-- **What the insertion of a demand keeps holds of what a row of contracts demands.** -/
theorem requirement_induction {P : Schema → Prop} {demand : Contract → Schema}
    {cs : List Contract} (hnil : P [])
    (hinsert : ∀ c ∈ cs, ∀ e ∈ demand c, ∀ s : Schema, P s → P (s.insert e.1 e.2)) :
    P (requirement demand cs) := requirementFrom_induction hinsert hnil

theorem wellFormed_requirement {demand : Contract → Schema} {cs : List Contract}
    (hcs : ∀ c ∈ cs, (demand c).WellFormed) : Schema.WellFormed (requirement demand cs) :=
  requirement_induction .nil fun c hc e he _ hs =>
    hs.insert ((hcs c hc).proper e he) ((hcs c hc).types e he)

/-- The productions of a stage are composed onto those before like the fields of a modification. -/
theorem addEffect_eq : ∀ ps net : Produced, addEffect ps net = Production.composeFields ps net
  | [], net => by rw [addEffect, Production.composeFields]
  | (key, p) :: ps, net => by
      rw [addEffect, Production.composeFields, addEffect_eq ps]
      rfl

/-- **What the insertion of a composed production keeps holds of the net effect of a row.** -/
theorem foldl_addEffect_induction {P : Produced → Prop} : ∀ {cs : List Contract} {net : Produced},
    (∀ c ∈ cs, ∀ e ∈ c.produced, ∀ before : Produced, P before →
      P (before.insert e.1 (Production.compose (before.find? e.1) e.2))) → P net →
        P (cs.foldl (fun net c => addEffect c.produced net) net)
  | [], _, _, hnet => hnet
  | c :: cs, _, hinsert, hnet => by
      obtain ⟨hc, hcs⟩ := List.forall_mem_cons.1 hinsert
      rw [List.foldl_cons, addEffect_eq]
      exact foldl_addEffect_induction hcs (Production.composeFields_induction hc hnet)

theorem wellFormed_foldl_addEffect {cs : List Contract} {net : Produced}
    (hcs : ∀ c ∈ cs, c.produced.WellFormed) (hnet : net.WellFormed) :
    Produced.WellFormed (cs.foldl (fun net c => addEffect c.produced net) net) :=
  foldl_addEffect_induction (fun c hc e he _ hb =>
    hb.insert ((hcs c hc).proper e he)
      (((hcs c hc).productions e he).compose fun _ hp => (hb.find? hp).2)) hnet

theorem wellFormed_netEffect {cs : List Contract} (hcs : ∀ c ∈ cs, c.produced.WellFormed) :
    Produced.WellFormed (netEffect cs) :=
  wellFormed_foldl_addEffect hcs .nil

/-- What the insertion of a link's record keeps holds also where the link has none. -/
theorem storeRecord_induction {P : Schema → Prop} {pick : Contract → Schema} {name : String}
    {c : Contract} {f f' : Filling TypeSpec}
    (hinsert : name ≠ ancestorName → ∀ s : Schema, P s →
      P (s.insert name (.record (pick c) none)))
    (hf : P f.entries) (h : storeRecord pick name c f = .ok f') : P f'.entries := by
  unfold storeRecord at h
  split at h
  · cases h
    exact hf
  · simp only at h
    split at h
    · rename_i next hstore
      cases h
      by_cases hn : name = ancestorName
      · subst hn
        rw [Filling.store_ancestor] at hstore
        obtain rfl := Option.some.inj hstore
        exact hf
      · rw [(Filling.store_entry hn hstore).1]
        exact hinsert hn _ hf
    · cases h

/-- What the insertion of a link's record keeps holds of the records of all links. -/
theorem recordsOf_induction {P : Schema → Prop} {pick : Contract → Schema} :
    ∀ {cs : List (String × Contract)} {f f' : Filling TypeSpec},
      (∀ e ∈ cs, e.1 ≠ ancestorName → ∀ s : Schema, P s →
        P (s.insert e.1 (.record (pick e.2) none))) →
      P f.entries → recordsOf pick cs f = .ok f' → P f'.entries
  | [], f, f', _, hf, h => by
      cases h
      exact hf
  | (name, c) :: cs, f, f', hinsert, hf, h => by
      obtain ⟨hc, hcs⟩ := List.forall_mem_cons.1 hinsert
      obtain ⟨next, hnext, hmore⟩ := Step.bind_eq_ok.1 h
      exact recordsOf_induction hcs (storeRecord_induction hc hf hnext) hmore

/-- **What the insertion of a link's record keeps holds of the records of a row.** -/
theorem recordEntries_induction {P : Schema → Prop} {pick : Contract → Schema}
    {cs : List (String × Contract)} (hnil : P [])
    (hinsert : ∀ e ∈ cs, e.1 ≠ ancestorName → ∀ s : Schema, P s →
      P (s.insert e.1 (.record (pick e.2) none))) : P (recordEntries pick cs) := by
  unfold recordEntries
  split
  · rename_i f hf
    exact recordsOf_induction hinsert hnil hf
  · exact hnil

theorem wellFormed_recordEntries {pick : Contract → Schema} {cs : List (String × Contract)}
    (hcs : ∀ e ∈ cs, e.1 ≠ "" ∧ (pick e.2).WellFormed) :
    Schema.WellFormed (recordEntries pick cs) :=
  recordEntries_induction .nil fun e he hn _ hs =>
    hs.insert ⟨(hcs e he).1, hn⟩ (TypeSpec.wellFormed_record_iff.2 (hcs e he).2)

/-- **The contract of well-formed contracts is well-formed.** -/
theorem wellFormed_derivedContract {cs : List (String × Contract)}
    (hcs : ∀ e ∈ cs, e.1 ≠ "" ∧ e.2.WellFormed) : (derivedContract cs).WellFormed := by
  have hsnd : ∀ c ∈ cs.map Prod.snd, c.WellFormed := by
    intro c hc
    obtain ⟨e, he, rfl⟩ := List.mem_map.1 hc
    exact (hcs e he).2
  exact {
    fitRequires := wellFormed_requirement fun c hc => (hsnd c hc).fitDemand
    transformRequires := wellFormed_requirement fun c hc => (hsnd c hc).transformRequires
    fitParameters := wellFormed_recordEntries fun e he => ⟨(hcs e he).1, (hcs e he).2.fitParameters⟩
    fittedState := wellFormed_recordEntries fun e he => ⟨(hcs e he).1, (hcs e he).2.fittedState⟩
    produced := wellFormed_netEffect fun c hc => (hsnd c hc).produced }

theorem namedContracts_eq_map : ∀ links : List (String × Link),
    namedContracts links = links.map fun e => (e.1, e.2.contract)
  | [] => rfl
  | (name, l) :: links => by
      rw [namedContracts, namedContracts_eq_map links]
      rfl

/-- **The contract of a well-formed link is well-formed**, at any depth. -/
theorem Link.WellFormed.contract {l : Link} (hl : l.WellFormed) : l.contract.WellFormed := by
  induction hl with
  | stage hc => exact hc
  | chain _ _ hnames _ ih =>
      rw [Link.contract, namedContracts_eq_map]
      refine wellFormed_derivedContract fun e he => ?_
      obtain ⟨e', he', rfl⟩ := List.mem_map.1 he
      exact ⟨(hnames e' he').1, ih e' he'⟩

/-! ## 4. Building -/

theorem checkName_ok {path : String} {seen : List String} {v : Value} {name : String}
    (h : Chain.checkName path seen v = .ok name) : LinkName name ∧ name ∉ seen := by
  cases v with
  | text s =>
      rw [Chain.checkName] at h
      split at h
      · cases h
      · rename_i hne
        split at h
        · cases h
        · rename_i hsep
          split at h
          · cases h
          · rename_i hseen
            cases h
            exact ⟨⟨hne, by simpa using hsep⟩, by simpa using hseen⟩
  | _ => cases h

/-- The names that pass the check are new, distinct and proper; the links are the given ones. -/
theorem checkNames_ok {index : Nat} {seen : List String} : ∀ {given : List (Value × Link)}
    {links : List (String × Link)}, Chain.checkNames index seen given = .ok links →
      Entries.Distinct links ∧ (∀ e ∈ links, LinkName e.1 ∧ e.1 ∉ seen) ∧
        ∀ e ∈ links, ∃ v, (v, e.2) ∈ given := by
  intro given
  induction given generalizing index seen with
  | nil =>
      intro links h
      cases h
      exact ⟨Entries.distinct_nil, fun _ h => absurd h List.not_mem_nil,
        fun _ h => absurd h List.not_mem_nil⟩
  | cons e given ih =>
      obtain ⟨v, l⟩ := e
      intro links h
      rw [Chain.checkNames] at h
      obtain ⟨name, hname, h⟩ := Step.bind_eq_ok.1 h
      obtain ⟨rest, hrest, h⟩ := Step.bind_eq_ok.1 h
      cases h
      obtain ⟨hproper, hseen⟩ := checkName_ok hname
      obtain ⟨hd, hnames, hlinks⟩ := ih hrest
      refine ⟨Entries.distinct_cons_iff.2 ⟨?_, hd⟩, ?_, ?_⟩
      · refine Entries.find?_eq_none_iff.2 fun hmem => ?_
        obtain ⟨e, he, hn⟩ := List.mem_map.1 hmem
        exact (hnames e he).2 (hn ▸ List.mem_cons_self)
      · rintro e (_ | ⟨_, he⟩)
        · exact ⟨hproper, hseen⟩
        · exact ⟨(hnames e he).1, fun h => (hnames e he).2 (List.mem_cons_of_mem _ h)⟩
      · rintro e (_ | ⟨_, he⟩)
        · exact ⟨v, List.mem_cons_self⟩
        · obtain ⟨w, hw⟩ := hlinks e he
          exact ⟨w, List.mem_cons_of_mem _ hw⟩

end SchemaFlow
