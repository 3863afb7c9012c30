import SchemaFlow.Proofs.Chain.Construction
import SchemaFlow.Proofs.Production.Given

/-!
# The contract of a chain, derived from values

The contract of a chain is made of values like any other: the productions of the links stand in a
graph and are applied and composed there, the records of parameters and state are built by the
checked constructor, and the outcome is read as a declaration. None of these checks refuses anything,
except that the name of a record may be sealed, and what is read is `derivedContract`.

* `derivedGiven_eq`: the contract of a row of links, derived from values.
* `Chain.contract_given`: the contract of a chain that was built.
-/

namespace SchemaFlow

open Entries (Parallel Arrived)

/-! ## 1. Deriving from values -/

/-- A link of a row: its name, its contract, and the table of its productions in a graph. -/
structure GivenLink where
  name : String
  contract : Contract
  produced : Entries Value

/-- The contracts of links, under their names. -/
def GivenLink.contracts (row : List GivenLink) : List (String × Contract) :=
  row.map fun l => (l.name, l.contract)

/-- A link whose contract is settled and could be made, and whose productions stand in the graph. -/
structure GivenLink.StandsIn (g : Graph) (l : GivenLink) : Prop where
  named : l.name ≠ ""
  settled : l.contract.Settled
  made : l.contract.produced.Made
  spelt : Production.FieldsSpelt g g.size l.contract.produced l.produced

namespace Graph

/-- What a row of links demands from outside, worked out with their productions as they are given. -/
def requirementGiven (g : Graph) (demand : Contract → Schema) :
    List GivenLink → Entries Value → Schema → Except Fault Schema
  | [], _, required => .ok required
  | l :: rest, made, required =>
    let required := (demand l.contract).foldl
      (fun s e => if made.has e.1 || s.has e.1 then s else s.insert e.1 e.2) required
    match g.effectOfGiven l.produced made with
    | (some fault, _) => .error fault
    | (none, made) => requirementGiven g demand rest made required

/-- The net effect of a row of links in order of arrival, composed of their productions as they are
    given. -/
def netGiven : List GivenLink → Entries Value → Graph → Except Fault (Graph × Entries Value)
  | [], net, h => .ok (h, net)
  | l :: rest, net, h => do
    let (h, net) ← composeGivenFields (fun e p h => h.composeGiven e p) l.produced net h
    netGiven rest net h

/-- Stores the record of a schema, which the constructor of records makes. -/
def storeRecordGiven (g : Graph) (pick : Contract → Schema) (l : GivenLink)
    (f : Filling TypeSpec) : Except Fault (Filling TypeSpec) :=
  if (pick l.contract).isEmpty then .ok f
  else do
    let t ← g.recordOf (.fieldTable (pick l.contract) none)
    match f.store t.partNames l.name t with
    | some f => .ok f
    | none => .error (.sealed l.name)

/-- Fills the records of parameters and of state, both link by link. -/
def fillRecordsGiven (g : Graph) : List GivenLink → Filling TypeSpec → Filling TypeSpec →
    Except Fault (Filling TypeSpec × Filling TypeSpec)
  | [], parameters, state => .ok (parameters, state)
  | l :: rest, parameters, state => do
    let parameters ← g.storeRecordGiven Contract.fitParameters l parameters
    let state ← g.storeRecordGiven Contract.fittedState l state
    g.fillRecordsGiven rest parameters state

/-- The contract of a row of links, derived from values: what was worked out stands in a declaration,
    and the declaration is read. -/
def derivedGiven (g : Graph) (row : List GivenLink) : Except Fault Contract := do
  let transformRequires ← g.requirementGiven Contract.transformRequires row [] []
  let fitRequires ← g.requirementGiven Contract.fitDemand row [] []
  let (h, net) ← netGiven row [] g
  let (parameters, state) ← h.fillRecordsGiven row {} {}
  let (h, produced) := h.add (.object (.sealed none) (Entries.ofList net))
  let (h, declaration) := h.add (.object .plain
    [(Slot.fitRequires.name, .fieldTable fitRequires none),
      (Slot.transformRequires.name, .fieldTable transformRequires none),
      (Slot.fitParameters.name, .fieldTable parameters.entries parameters.ancestor),
      (Slot.fittedState.name, .fieldTable state.entries state.ancestor),
      (Slot.producedOrModified.name, produced)])
  h.contractOf declaration "chain"

/-! ## 2. Each part is what it is said to be -/

variable {g : Graph}

theorem foldl_demand {made : Entries Value} {types : Entries TypeSpec}
    (hsame : ∀ name, made.has name = types.has name) : ∀ (demand required : Schema),
      demand.foldl (fun s e => if made.has e.1 || s.has e.1 then s else s.insert e.1 e.2)
        required = addDemand types demand required
  | [], _ => rfl
  | (key, t) :: rest, required => by
      rw [List.foldl_cons, foldl_demand hsame rest, addDemand, hsame]

theorem has_types (types : Entries TypeSpec) (name : String) :
    Entries.has (types.map fun e => (e.1, Value.type e.2)) name = types.has name :=
  (parallel_types types).has_eq name

theorem requirementGiven_eq (demand : Contract → Schema) : ∀ {row : List GivenLink},
    (∀ l ∈ row, l.StandsIn g) → ∀ {types : Entries TypeSpec},
      SettledTypes types → ∀ required : Schema,
        g.requirementGiven demand row (types.map fun e => (e.1, .type e.2)) required =
          .ok (requirementFrom demand (row.map GivenLink.contract) types required)
  | [], _, _, _, _ => rfl
  | l :: row, hrow, types, htypes, required => by
      obtain ⟨hl, hrest⟩ := List.forall_mem_cons.1 hrow
      have heffect := Production.effectOfGiven_spelt hl.spelt hl.made.contents htypes
      rw [requirementGiven, foldl_demand (has_types types), heffect, List.map_cons, requirementFrom]
      exact requirementGiven_eq demand hrest (SettledTypes.applyAll hl.made.contents htypes) _

/-- What the graph spells is composed in any graph that has grown out of it. -/
theorem composesAs_composeGiven : ∀ {fields : Produced} {entries : Entries Value},
    Production.FieldsSpelt g g.size fields entries → (∀ e ∈ fields, e.2.Made) →
      Parallel (Production.ComposesAs (fun e p h => h.composeGiven e p) g) entries fields
  | [], entries, he, _ => by
      obtain rfl : entries = [] := he
      exact .nil
  | (name, p) :: fields, _, ⟨v, later, he, hv, hlater⟩, hmade => by
      subst he
      obtain ⟨hp, hrest⟩ := List.forall_mem_cons.1 hmade
      refine .cons ⟨rfl, fun hgh ho hearlier => ?_⟩ (composesAs_composeGiven hlater hrest)
      exact Production.composeGiven_spelt ho hearlier (Spells.mono hgh hv) hp

/-- **The net effect of productions that are given is what `netEffect` says.** -/
theorem netGiven_eq : ∀ {row : List GivenLink}, (∀ l ∈ row, l.StandsIn g) →
    ∀ {h : Graph} {net : Entries Value} {ps : Produced}, g.KeptIn h → Arrived h.Spells net ps →
      ps.Made → ∃ k after, netGiven row net h = .ok (k, after) ∧ h.KeptIn k ∧
        Arrived k.Spells after
          ((row.map GivenLink.contract).foldl (fun net c => addEffect c.produced net) ps)
  | [], _, h, net, _, _, hnet, _ => ⟨h, net, rfl, .refl h, hnet⟩
  | l :: row, hrow, h, net, ps, hgh, hnet, hps => by
      obtain ⟨hl, hrest⟩ := List.forall_mem_cons.1 hrow
      obtain ⟨k, after, hafter, hkept, harrived⟩ := Production.composeGivenFields_eq
        (composesAs_composeGiven hl.spelt hl.made.contents)
        (fun e he => ⟨hl.made.table.proper e he, hl.made.contents e he⟩) hgh hnet hps
      obtain ⟨m, net', hnet', hkept', harrived'⟩ := netGiven_eq hrest (hgh.trans hkept) harrived
        (Production.made_composeFields hl.made hps)
      refine ⟨m, net', ?_, hkept.trans hkept', ?_⟩
      · rw [netGiven, hafter, Step.ok_bind]
        exact hnet'
      · rw [List.map_cons, List.foldl_cons, addEffect_eq]
        exact harrived'

theorem storeRecordGiven_eq {pick : Contract → Schema} {l : GivenLink}
    (hpick : Entries.Settled (pick l.contract)) (f : Filling TypeSpec) :
    g.storeRecordGiven pick l f = storeRecord pick l.name l.contract f := by
  rw [storeRecordGiven, storeRecord, recordOf_fieldTable hpick]
  rfl

/-- **The records of parameters and of state are made of settled schemas as they are.** -/
theorem fillRecordsGiven_eq : ∀ {row : List GivenLink}, (∀ l ∈ row, l.contract.Settled) →
    ∀ parameters state : Filling TypeSpec, g.fillRecordsGiven row parameters state =
      Chain.fillRecords (GivenLink.contracts row) parameters state
  | [], _, _, _ => rfl
  | l :: row, hrow, parameters, state => by
      obtain ⟨hl, hrest⟩ := List.forall_mem_cons.1 hrow
      rw [fillRecordsGiven, GivenLink.contracts, List.map_cons, Chain.fillRecords,
        storeRecordGiven_eq hl.fitParameters]
      simp only [storeRecordGiven_eq hl.fittedState, fillRecordsGiven_eq hrest]
      rfl

end Graph

/-! ## 3. The contract -/

/-- A declaration whose productions were worked out in a graph. -/
def Graph.declare (h : Graph) (net : Entries Value) (c : Contract)
    (parameters state : Option TypeSpec) : Graph × Value :=
  (h.add (.object (.sealed none) (Entries.ofList net))).1.add
    (.object .plain (c.slotsUnder parameters state (.node h.size)))

theorem Graph.contractOf_declare {h : Graph} {net : Entries Value} {c : Contract} (hc : c.Settled)
    (hnet : Parallel h.Spells (Entries.ofList net) c.produced) (parameters state : Option TypeSpec)
    (name : String) :
    (h.declare net c parameters state).1.contractOf (h.declare net c parameters state).2 name =
      .ok c := by
  have hadd := h.keptIn_add (.object (.sealed none) (Entries.ofList net))
  have hdeclared := (h.add (.object (.sealed none) (Entries.ofList net))).1.keptIn_add
    (.object .plain (c.slotsUnder parameters state (.node h.size)))
  have hspelt := Production.FieldsSpelt.mono (hadd.trans hdeclared) (Nat.le_refl _) _
    (Production.fieldsSpelt_of_parallel hnet)
  exact contractOf_slotsUnder hc (node?_add_self _ _) (hdeclared _ _ (h.node?_add_self _)) hspelt
    name

theorem recordEntries_of_ok {pick : Contract → Schema} {cs : List (String × Contract)}
    {f : Filling TypeSpec} (h : recordsOf pick cs {} = .ok f) :
    recordEntries pick cs = f.entries := by
  rw [recordEntries, h]

/-- **The contract of a row of links is derived from values as from productions**: the checks on the
    way refuse nothing but the sealed name of a record. -/
theorem Graph.derivedGiven_eq {g : Graph} {row : List GivenLink} (hrow : ∀ l ∈ row, l.StandsIn g) :
    g.derivedGiven row = (do
      Chain.checkRecords (GivenLink.contracts row)
      .ok (derivedContract (GivenLink.contracts row))) := by
  have hcontracts : (GivenLink.contracts row).map Prod.snd = row.map GivenLink.contract := by
    simp [GivenLink.contracts, Function.comp_def]
  have hrequirement : ∀ demand : Contract → Schema, g.requirementGiven demand row [] [] =
      .ok (requirement demand ((GivenLink.contracts row).map Prod.snd)) := fun demand =>
    hcontracts ▸ requirementGiven_eq demand hrow SettledTypes.nil []
  obtain ⟨h, net, hnet, -, harrived⟩ := netGiven_eq hrow (.refl g)
    (Arrived.of_settled .nil .nil) .nil
  have hrecords : h.fillRecordsGiven row {} {} =
      Chain.fillRecords (GivenLink.contracts row) {} {} :=
    fillRecordsGiven_eq (fun l hl => (hrow l hl).settled) {} {}
  rw [derivedGiven, hrequirement, Step.ok_bind, hrequirement, Step.ok_bind, hnet, Step.ok_bind,
    Chain.checkRecords]
  dsimp only
  rw [hrecords]
  cases hfill : Chain.fillRecords (GivenLink.contracts row) {} {} with
  | error fault => rfl
  | ok r =>
      obtain ⟨hparameters, hstate⟩ := Chain.fillRecords_eq_ok_iff.1 hfill
      have hsettled : (derivedContract (GivenLink.contracts row)).Settled := by
        refine settled_derivedContract fun e he => ?_
        obtain ⟨l, hl, rfl⟩ := List.mem_map.1 he
        exact ⟨(hrow l hl).named, (hrow l hl).settled⟩
      have hproduced : Parallel h.Spells (Entries.ofList net)
          (derivedContract (GivenLink.contracts row)).produced := by
        rw [derivedContract, netEffect, hcontracts]
        exact harrived.parallel
      -- the declaration holds the slots of the derived contract
      have hread := contractOf_declare hsettled hproduced r.1.ancestor r.2.ancestor "chain"
      rw [declare, Contract.slotsUnder] at hread
      rw [show (derivedContract (GivenLink.contracts row)).fitParameters = r.1.entries from
          recordEntries_of_ok hparameters,
        show (derivedContract (GivenLink.contracts row)).fittedState = r.2.entries from
          recordEntries_of_ok hstate] at hread
      exact hread

/-! ## 4. Chains -/

/-- The net effect of productions that were made could have been made too, so the contract of a chain
    of such links is again one to derive from. -/
theorem made_netEffect {cs : List Contract} (hcs : ∀ c ∈ cs, c.produced.Made) :
    Produced.Made (netEffect cs) :=
  foldl_addEffect_induction (fun c hc e he _ hbefore =>
    hbefore.insert ((hcs c hc).table.proper e he)
      (((hcs c hc).contents e he).compose fun _ hp => hbefore.find? hp)) .nil

/-- Settled contracts whose productions were made can stand in a graph, in a row. -/
theorem Graph.exists_row (g : Graph) : ∀ {cs : List (String × Contract)},
    (∀ e ∈ cs, e.1 ≠ "" ∧ e.2.Settled ∧ e.2.produced.Made) →
      ∃ h row, g.KeptIn h ∧ GivenLink.contracts row = cs ∧ ∀ l ∈ row, l.StandsIn h
  | [], _ => ⟨g, [], .refl g, rfl, fun _ h => absurd h List.not_mem_nil⟩
  | (name, c) :: cs, hcs => by
      obtain ⟨⟨hname, hsettled, hmade⟩, hrest⟩ := List.forall_mem_cons.1 hcs
      obtain ⟨hkept, hspelt⟩ := Production.addedFields c.produced g
      obtain ⟨h, row, hkept', rfl, hrow⟩ := exists_row (Production.addFields c.produced g).1 hrest
      refine ⟨h, ⟨name, c, (Production.addFields c.produced g).2⟩ :: row, hkept.trans hkept', rfl,
        List.forall_mem_cons.2 ⟨⟨hname, hsettled, hmade, ?_⟩, hrow⟩⟩
      exact Production.FieldsSpelt.mono hkept' hkept'.size_le _ hspelt

/-- What a chain that was built promises of the row of its links. -/
theorem Chain.settled_namedContracts {given : List (Value × Link)} {c : Chain}
    (hlinks : ∀ l ∈ given, l.2.Made) (hbuilt : ofLinks given = .ok c) :
    checkRecords (namedContracts c.links) = .ok () ∧
      ∀ e ∈ namedContracts c.links, e.1 ≠ "" ∧ e.2.Settled := by
  obtain ⟨rfl, hnamed⟩ := named_of_ofLinks hbuilt
  constructor
  · have hne : c.links ≠ [] := by
      intro he
      rw [he] at hbuilt
      cases hbuilt
    rw [ofLinks_named hne hnamed] at hbuilt
    obtain ⟨_, hchecked, -⟩ := Step.bind_eq_ok.1 hbuilt
    exact hchecked
  · intro e he
    rw [namedContracts_eq_map] at he
    obtain ⟨l, hl, rfl⟩ := List.mem_map.1 he
    exact ⟨(hnamed.proper l hl).1, (hlinks _ (List.mem_map_of_mem hl)).settled⟩

/-- **The contract of a chain that was built is the one derived from values**, in every graph in
    which the productions of its links stand. There are such graphs, and the productions of the
    contract can stand in one again. -/
theorem Chain.contract_given {given : List (Value × Link)} {c : Chain}
    (hlinks : ∀ l ∈ given, l.2.Made) (hbuilt : ofLinks given = .ok c)
    (hmade : ∀ e ∈ namedContracts c.links, e.2.produced.Made) :
    (∃ g row, GivenLink.contracts row = namedContracts c.links ∧ ∀ l ∈ row, l.StandsIn g) ∧
    (∀ g row, GivenLink.contracts row = namedContracts c.links → (∀ l ∈ row, l.StandsIn g) →
      g.derivedGiven row = .ok c.contract) ∧
    c.contract.produced.Made := by
  obtain ⟨hchecked, hcontracts⟩ := settled_namedContracts hlinks hbuilt
  refine ⟨?_, fun g row hrow hstand => ?_, made_netEffect fun k hk => ?_⟩
  · obtain ⟨g, row, -, hrow, hstand⟩ := Graph.exists_row {} fun e he =>
      ⟨(hcontracts e he).1, (hcontracts e he).2, hmade e he⟩
    exact ⟨g, row, hrow, hstand⟩
  · rw [Graph.derivedGiven_eq hstand, hrow, hchecked]
    rfl
  · obtain ⟨e, he, rfl⟩ := List.mem_map.1 hk
    exact hmade e he

end SchemaFlow
