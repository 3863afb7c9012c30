import SchemaFlow.Proofs.Chain.Requirement

/-!
# Grouping links of a chain

Links of a chain that follow each other may stand in it as one nested chain. Around it only the
contract that is derived from them is seen, and this contract loses two things that the links have:

* what a link of the group demands of a name that the links before it in the group drop is a demand
  on the names from outside; behind a link that makes the name it counts as met (`Rereads`);
* a link that fits on nothing reads its transform input, and so does a group that fits on nothing,
  where each of its links has been asked already (`FallsBack`).

For all other names the chain requires the same, with the same types (`Chain.required_grouped`).
-/

namespace SchemaFlow

variable {demand : Contract → Schema} {key : String}

/-! ## 1. Unmet demands in two rows -/

/-- **The first unmet demand of two rows**: what the first row does to the name is there for the
    second. -/
theorem firstUnmet_append : ∀ (as bs : List (String × Contract)) (present : Bool),
    firstUnmet demand key (as ++ bs) present =
      (firstUnmet demand key as present).or
        (firstUnmet demand key bs (presentBehind (lastProduction as key) present))
  | [], _, _ => rfl
  | a :: as, bs, present => by
      rw [List.cons_append, firstUnmet, firstUnmet, firstUnmet_append as bs, lastProduction_cons,
        presentBehind_or, Option.or_assoc]

theorem firstUnmet_eq_none : ∀ {ls : List (String × Contract)} (present : Bool),
    (∀ l ∈ ls, (demand l.2).has key = false) → firstUnmet demand key ls present = none
  | [], _, _ => rfl
  | l :: ls, present, h => by
      obtain ⟨hl, hls⟩ := List.forall_mem_cons.1 h
      rw [firstUnmet, firstUnmet_eq_none _ hls, Entries.has_eq_false_iff.1 hl, ite_self,
        Option.or_none]

/-- An unmet demand stands at a link in front of which the name is not there. -/
theorem exists_of_firstUnmet : ∀ {ls : List (String × Contract)} {present : Bool} {t : TypeSpec},
    firstUnmet demand key ls present = some t →
      ∃ i l, ls[i]? = some l ∧ (demand l.2).find? key = some t ∧
        presentBehind (lastProduction (ls.take i) key) present = false
  | [], _, _, h => by cases h
  | l :: ls, present, t, h => by
      rw [firstUnmet, Option.or_eq_some_iff] at h
      rcases h with h | ⟨_, h⟩
      · cases present with
        | true => cases h
        | false => exact ⟨0, l, rfl, h, rfl⟩
      · obtain ⟨i, l', hi, ht, hgone⟩ := exists_of_firstUnmet h
        refine ⟨i + 1, l', hi, ht, ?_⟩
        rw [List.take_succ_cons, lastProduction_cons, presentBehind_or]
        exact hgone

/-! ## 2. Names that a row makes, and names that it reads again -/

/-- A row of stages leaves a name with a value, wherever it got it from. -/
def Makes (ls : List (String × Contract)) (key : String) : Prop :=
  ∃ p, lastProduction ls key = some p ∧ p ≠ .drop

/-- A stage of a row demands a name that the stages before it have dropped. -/
def Rereads (demand : Contract → Schema) (ls : List (String × Contract)) (key : String) : Prop :=
  ∃ i l, ls[i]? = some l ∧ (demand l.2).has key = true ∧
    lastProduction (ls.take i) key = some .drop

theorem presentBehind_iff_makes {ls : List (String × Contract)} :
    presentBehind (lastProduction ls key) false = true ↔ Makes ls key := by
  unfold Makes
  cases lastProduction ls key with
  | none => simp [presentBehind]
  | some p => cases p <;> simp [presentBehind]

/-- **Where a name is there in front of a row, the row demands it only after dropping it.** -/
theorem isSome_firstUnmet_iff_rereads {ls : List (String × Contract)} :
    (firstUnmet demand key ls true).isSome = true ↔ Rereads demand ls key := by
  constructor
  · intro h
    obtain ⟨t, ht⟩ := Option.isSome_iff_exists.1 h
    obtain ⟨i, l, hi, hl, hgone⟩ := exists_of_firstUnmet ht
    refine ⟨i, l, hi, Entries.has_eq_true_iff.2 ⟨t, hl⟩, ?_⟩
    exact (presentBehind_eq_false_iff.1 hgone).resolve_right fun h => Bool.noConfusion h.2
  · rintro ⟨i, l, hi, hl, hdrop⟩
    obtain ⟨t, ht⟩ := Entries.has_eq_true_iff.1 hl
    exact isSome_firstUnmet hi ht (presentBehind_eq_false_iff.2 (.inl hdrop))

/-! ## 3. The contract of a group -/

theorem Production.compose_eq_drop_iff {earlier : Option Production} {later : Production} :
    compose earlier later = .drop ↔ later = .drop := by
  cases later with
  | modify fields =>
      cases earlier with
      | none => exact Iff.rfl
      | some p => cases p <;> simp [compose, composeAfter]
  | _ => exact Iff.rfl

theorem presentBehind_some {p q : Production} (h : p = .drop ↔ q = .drop) (before : Bool) :
    presentBehind (some p) before = presentBehind (some q) before := by
  cases p <;> cases q <;> simp_all [presentBehind]

/-- Behind the net effect of a row a name is there as it is behind the row. -/
theorem presentBehind_netFrom : ∀ {ls : List (String × Contract)} {net : Produced},
    (∀ l ∈ ls, l.2.WellFormed) → ∀ before : Bool,
      presentBehind ((netFrom net (ls.map Prod.snd)).find? key) before =
        presentBehind (lastProduction ls key) (presentBehind (net.find? key) before)
  | [], _, _, _ => rfl
  | l :: ls, net, hls, before => by
      obtain ⟨hl, hls⟩ := List.forall_mem_cons.1 hls
      rw [List.map_cons, netFrom_cons, presentBehind_netFrom hls, lastProduction_cons,
        presentBehind_or, Production.find?_composeFields key net hl.produced.distinct]
      cases hp : l.2.produced.find? key with
      | none => rfl
      | some p =>
          -- a composition drops the name exactly where the later production does
          have hcomposed : presentBehind (some (Production.compose (net.find? key) p)) before =
              presentBehind (some p) before :=
            presentBehind_some Production.compose_eq_drop_iff before
          have hover : presentBehind (some p) (presentBehind (net.find? key) before) =
              presentBehind (some p) before := by cases p <;> rfl
          rw [hover, ← hcomposed]

theorem presentBehind_derivedContract {mid : List (String × Contract)}
    (hmid : ∀ l ∈ mid, l.2.WellFormed) (before : Bool) :
    presentBehind ((derivedContract mid).produced.find? key) before =
      presentBehind (lastProduction mid key) before :=
  presentBehind_netFrom hmid before

/-! ## 4. A group among other stages -/

section Group

variable {pre mid post : List (String × Contract)} {name : String} {d : Contract}

theorem firstUnmet_flat (pre mid post : List (String × Contract)) :
    firstUnmet demand key (pre ++ mid ++ post) false =
      (firstUnmet demand key pre false).or
        ((firstUnmet demand key mid (presentBehind (lastProduction pre key) false)).or
          (firstUnmet demand key post
            (presentBehind (lastProduction (pre ++ mid) key) false))) := by
  rw [firstUnmet_append, firstUnmet_append, Option.or_assoc]

/-- A contract that leaves a name as the group does is asked for it once, in front of the group. -/
theorem firstUnmet_grouped
    (hd : ∀ before, presentBehind (d.produced.find? key) before =
      presentBehind (lastProduction mid key) before) :
    firstUnmet demand key (pre ++ (name, d) :: post) false =
      (firstUnmet demand key pre false).or
        ((if presentBehind (lastProduction pre key) false then none
          else (demand d).find? key).or
          (firstUnmet demand key post
            (presentBehind (lastProduction (pre ++ mid) key) false))) := by
  rw [firstUnmet_append, firstUnmet, hd, lastProduction_append, presentBehind_or]

/-- **A group demands what its stages demand**, if it demands what they do of a name that is not
    there, and they do not read again what is there. -/
theorem firstUnmet_grouped_eq
    (hd : ∀ before, presentBehind (d.produced.find? key) before =
      presentBehind (lastProduction mid key) before)
    (hmade : Makes pre key → ¬ Rereads demand mid key)
    (hnew : ¬ Makes pre key → (demand d).find? key = firstUnmet demand key mid false) :
    firstUnmet demand key (pre ++ (name, d) :: post) false =
      firstUnmet demand key (pre ++ mid ++ post) false := by
  rw [firstUnmet_grouped hd, firstUnmet_flat]
  rw [← presentBehind_iff_makes] at hmade hnew
  cases hpresent : presentBehind (lastProduction pre key) false with
  | true =>
      -- the group is not asked for the name, and its stages would ask after dropping it only
      have hmet : firstUnmet demand key mid true = none := by
        have hnot := hmade hpresent
        rw [← isSome_firstUnmet_iff_rereads] at hnot
        exact Option.not_isSome_iff_eq_none.1 hnot
      rw [hmet, if_pos rfl]
  | false =>
      rw [hpresent] at hnew
      rw [hnew Bool.false_ne_true, if_neg Bool.false_ne_true]

/-- **A group that reads again what was made for it does not demand it from outside**, and its
    stages do. -/
theorem firstUnmet_grouped_rereads
    (hd : ∀ before, presentBehind (d.produced.find? key) before =
      presentBehind (lastProduction mid key) before)
    (hmade : Makes pre key) (hrereads : Rereads demand mid key)
    (haround : ∀ l ∈ pre ++ post, (demand l.2).has key = false) :
    firstUnmet demand key (pre ++ (name, d) :: post) false = none ∧
      (firstUnmet demand key (pre ++ mid ++ post) false).isSome = true := by
  obtain ⟨hpre, hpost⟩ := List.forall_mem_append.1 haround
  rw [firstUnmet_grouped hd, firstUnmet_flat, presentBehind_iff_makes.2 hmade, if_pos rfl,
    firstUnmet_eq_none _ hpre, firstUnmet_eq_none _ hpost]
  refine ⟨rfl, ?_⟩
  rw [Option.none_or, Option.or_none]
  exact isSome_firstUnmet_iff_rereads.2 hrereads

end Group

/-! ## 5. What a chain with a group requires -/

namespace Chain

/-- The chain in which the stages `mid` stand as one nested chain under a name. -/
def grouped (name : String) (pre mid post : List (String × Contract)) : Chain :=
  ⟨stagesOf pre ++ [(name, .chain (stagesOf mid))] ++ stagesOf post⟩

theorem contracts_grouped (name : String) (pre mid post : List (String × Contract)) :
    (grouped name pre mid post).contracts =
      (pre ++ (name, derivedContract mid) :: post).map Prod.snd := by
  have hnamed : namedContracts (grouped name pre mid post).links =
      namedContracts (stagesOf pre) ++ (name, derivedContract mid) ::
        namedContracts (stagesOf post) := by
    rw [grouped, namedContracts_eq_map, List.map_append, List.map_append, List.map_singleton,
      ← namedContracts_eq_map, ← namedContracts_eq_map, Link.contract, namedContracts_stagesOf mid,
      List.append_assoc, List.singleton_append]
  rw [contracts, hnamed, namedContracts_stagesOf, namedContracts_stagesOf]

theorem WellFormed.of_mem_stagesOf {ls : List (String × Contract)}
    (hc : Chain.WellFormed ⟨stagesOf ls⟩) {l : String × Contract} (hl : l ∈ ls) :
    LinkName l.1 ∧ l.2.WellFormed := by
  obtain ⟨-, -, hnames, hlinks⟩ := Chain.wellFormed_iff.1 hc
  have hmem : (l.1, Link.stage l.2) ∈ stagesOf ls := List.mem_map_of_mem hl
  refine ⟨hnames _ hmem, ?_⟩
  cases hlinks _ hmem with
  | stage hcontract => exact hcontract

section Required

variable {pre mid post : List (String × Contract)} {name : String}

/-- What the contracts of a chain with a group demand, by the first unmet demand among them. -/
theorem find?_requirement_grouped (hc : Chain.WellFormed ⟨stagesOf (pre ++ mid ++ post)⟩) :
    (requirement demand (grouped name pre mid post).contracts).find? key =
      firstUnmet demand key (pre ++ (name, derivedContract mid) :: post) false := by
  have hls : ∀ l ∈ pre ++ mid ++ post, LinkName l.1 ∧ l.2.WellFormed :=
    fun l hl => hc.of_mem_stagesOf hl
  obtain ⟨hpremid, hpost⟩ := List.forall_mem_append.1 hls
  obtain ⟨hpre, hmid⟩ := List.forall_mem_append.1 hpremid
  have hderived : (derivedContract mid).WellFormed :=
    wellFormed_derivedContract fun e he => ⟨(hmid e he).1.1, (hmid e he).2⟩
  rw [contracts_grouped, find?_requirement]
  exact List.forall_mem_append.2 ⟨fun l hl => (hpre l hl).2,
    List.forall_mem_cons.2 ⟨hderived, fun l hl => (hpost l hl).2⟩⟩

theorem find?_requirement_flat (hc : Chain.WellFormed ⟨stagesOf (pre ++ mid ++ post)⟩) :
    (requirement demand (Chain.contracts ⟨stagesOf (pre ++ mid ++ post)⟩)).find? key =
      firstUnmet demand key (pre ++ mid ++ post) false := by
  rw [contracts_stagesOf, find?_requirement fun l hl => (hc.of_mem_stagesOf hl).2]

theorem presentBehind_group (hc : Chain.WellFormed ⟨stagesOf (pre ++ mid ++ post)⟩)
    (before : Bool) : presentBehind ((derivedContract mid).produced.find? key) before =
      presentBehind (lastProduction mid key) before :=
  presentBehind_derivedContract
    (fun _ hl => (hc.of_mem_stagesOf (List.mem_append_left _ (List.mem_append_right _ hl))).2)
    before

theorem find?_requirement_mid (hc : Chain.WellFormed ⟨stagesOf (pre ++ mid ++ post)⟩) :
    (requirement demand (Chain.contracts ⟨stagesOf mid⟩)).find? key =
      firstUnmet demand key mid false := by
  rw [contracts_stagesOf]
  exact find?_requirement fun _ hl =>
    (hc.of_mem_stagesOf (List.mem_append_left _ (List.mem_append_right _ hl))).2

/-- Either demand, where the group demands what its stages do. -/
theorem requirement_grouped_eq (hc : Chain.WellFormed ⟨stagesOf (pre ++ mid ++ post)⟩)
    (hmade : ¬ (Makes pre key ∧ Rereads demand mid key))
    (hnew : ¬ Makes pre key → (demand (derivedContract mid)).find? key =
      (requirement demand (Chain.contracts ⟨stagesOf mid⟩)).find? key) :
    (requirement demand (grouped name pre mid post).contracts).find? key =
      (requirement demand (Chain.contracts ⟨stagesOf (pre ++ mid ++ post)⟩)).find? key := by
  rw [find?_requirement_mid hc] at hnew
  rw [find?_requirement_grouped hc, find?_requirement_flat hc]
  exact firstUnmet_grouped_eq (presentBehind_group hc) (fun hm hr => hmade ⟨hm, hr⟩) hnew

/-- Either demand, where the stages of the group read again what was made for them. -/
theorem requirement_grouped_rereads (hc : Chain.WellFormed ⟨stagesOf (pre ++ mid ++ post)⟩)
    (hmade : Makes pre key) (hrereads : Rereads demand mid key)
    (haround : ∀ l ∈ pre ++ post, (demand l.2).has key = false) :
    (requirement demand (grouped name pre mid post).contracts).has key = false ∧
      (requirement demand (Chain.contracts ⟨stagesOf (pre ++ mid ++ post)⟩)).has key = true := by
  have hboth : firstUnmet demand key (pre ++ (name, derivedContract mid) :: post) false = none ∧
      (firstUnmet demand key (pre ++ mid ++ post) false).isSome = true :=
    firstUnmet_grouped_rereads (presentBehind_group hc) hmade hrereads haround
  unfold Entries.has
  rw [find?_requirement_grouped hc, find?_requirement_flat hc, hboth.1]
  exact ⟨rfl, hboth.2⟩

end Required

/-- A row of stages as a whole fits on nothing from outside, while it transforms a name from
    outside: what is asked of each of its stages is then asked of the row once more. -/
def FallsBack (ls : List (String × Contract)) (key : String) : Prop :=
  Chain.requiredFitInput ⟨stagesOf ls⟩ = [] ∧ (Chain.requiredInput ⟨stagesOf ls⟩).has key = true

theorem fitDemand_derivedContract (ls : List (String × Contract)) :
    (derivedContract ls).fitDemand =
      if (Chain.requiredFitInput ⟨stagesOf ls⟩).isEmpty then Chain.requiredInput ⟨stagesOf ls⟩
      else Chain.requiredFitInput ⟨stagesOf ls⟩ := by
  rw [requiredFitInput, requiredInput, contracts_stagesOf]
  rfl

/-- **What a group demands for fitting is what its stages demand**, unless it falls back. -/
theorem find?_fitDemand_derivedContract {ls : List (String × Contract)} (h : ¬ FallsBack ls key) :
    (derivedContract ls).fitDemand.find? key =
      (Chain.requiredFitInput ⟨stagesOf ls⟩).find? key := by
  rw [fitDemand_derivedContract]
  cases hfit : Chain.requiredFitInput ⟨stagesOf ls⟩ with
  | cons e es => rfl
  | nil =>
      have hno : (Chain.requiredInput ⟨stagesOf ls⟩).has key = false := by
        rw [← Bool.not_eq_true]
        exact fun hhas => h ⟨hfit, hhas⟩
      exact Entries.has_eq_false_iff.1 hno

/-- **Grouping stages into a nested chain keeps what a chain requires**, with the same types, except
    of a name that stands in the way of one of two things:

    * the group drops a name that the stages before it have made, and reads it again: then the chain
      of stages requires the name, and the chain with the group does not;
    * the group needs nothing from outside to fit, and needs the name to transform: then the chain
      with the group requires the name for fitting, and the chain of stages does not.

    Both differences are there whenever no stage around the group demands the name. -/
theorem required_grouped (name : String) {pre mid post : List (String × Contract)}
    (hc : Chain.WellFormed ⟨stagesOf (pre ++ mid ++ post)⟩) (key : String) :
    (¬ (Makes pre key ∧ Rereads Contract.transformRequires mid key) →
      (grouped name pre mid post).requiredInput.find? key =
        (Chain.requiredInput ⟨stagesOf (pre ++ mid ++ post)⟩).find? key) ∧
    (¬ (Makes pre key ∧ Rereads Contract.fitDemand mid key) → Makes pre key ∨ ¬ FallsBack mid key →
      (grouped name pre mid post).requiredFitInput.find? key =
        (Chain.requiredFitInput ⟨stagesOf (pre ++ mid ++ post)⟩).find? key) ∧
    (Makes pre key → Rereads Contract.transformRequires mid key →
      (∀ l ∈ pre ++ post, l.2.transformRequires.has key = false) →
        (grouped name pre mid post).requiredInput.has key = false ∧
          (Chain.requiredInput ⟨stagesOf (pre ++ mid ++ post)⟩).has key = true) ∧
    (Makes pre key → Rereads Contract.fitDemand mid key →
      (∀ l ∈ pre ++ post, l.2.fitDemand.has key = false) →
        (grouped name pre mid post).requiredFitInput.has key = false ∧
          (Chain.requiredFitInput ⟨stagesOf (pre ++ mid ++ post)⟩).has key = true) ∧
    (¬ Makes pre key → FallsBack mid key → (∀ l ∈ pre ++ post, l.2.fitDemand.has key = false) →
      (grouped name pre mid post).requiredFitInput.has key = true ∧
        (Chain.requiredFitInput ⟨stagesOf (pre ++ mid ++ post)⟩).has key = false) := by
  refine ⟨fun h => requirement_grouped_eq hc h fun _ => ?_, fun h hback =>
    requirement_grouped_eq hc h fun hnew => ?_, requirement_grouped_rereads hc,
    requirement_grouped_rereads hc, fun hnew hback haround => ?_⟩
  · rw [contracts_stagesOf]
    rfl
  · exact find?_fitDemand_derivedContract (hback.resolve_left hnew)
  · -- the stages demand nothing of the name, and the group falls back on its transform input
    obtain ⟨hpre, hpost⟩ := List.forall_mem_append.1 haround
    have hgone : presentBehind (lastProduction pre key) false = false := by
      rw [← Bool.not_eq_true, presentBehind_iff_makes]
      exact hnew
    have hmid : firstUnmet Contract.fitDemand key mid false = none := by
      rw [← find?_requirement_mid hc, ← requiredFitInput, hback.1]
      rfl
    have hgroup : (derivedContract mid).fitDemand.has key = true := by
      rw [fitDemand_derivedContract, hback.1]
      exact hback.2
    unfold Entries.has at hgroup ⊢
    rw [requiredFitInput, requiredFitInput, find?_requirement_grouped hc, find?_requirement_flat hc,
      firstUnmet_grouped (presentBehind_group hc), firstUnmet_flat, hgone, hmid,
      firstUnmet_eq_none _ hpre, firstUnmet_eq_none _ hpost]
    refine ⟨?_, rfl⟩
    rw [if_neg Bool.false_ne_true, Option.none_or, Option.or_none]
    exact hgroup

/-- Stages of which two in the middle read a name that is never made (`limit`), and one that the
    first of them drops (`k`). -/
def limitSample : List (String × Contract) × List (String × Contract) × List (String × Contract) :=
  ([("make", { produced := [("k", .type (.scalar .float))] })],
    [("clear", {
        transformRequires := [("limit", .record [("low", .scalar .float)] none)]
        produced := [("k", .drop)] }),
      ("read", { transformRequires := [("k", .scalar .float), ("limit", .scalar .integer)] })],
    [("score", { fitRequires := [("limit", .scalar .string)] })])

/-- The two as a group: `limit` is required as before, `k` is not. -/
theorem required_grouped_limit :
    (grouped "group" limitSample.1 limitSample.2.1 limitSample.2.2).requiredInput.find? "limit" =
        some (.record [("low", .scalar .float)] none) ∧
      (grouped "group" limitSample.1 limitSample.2.1 limitSample.2.2).requiredFitInput.find?
        "limit" = some (.record [("low", .scalar .float)] none) ∧
      (grouped "group" limitSample.1 limitSample.2.1 limitSample.2.2).requiredInput.has "k" =
        false ∧
      (Chain.requiredInput ⟨stagesOf (limitSample.1 ++ limitSample.2.1 ++ limitSample.2.2)⟩).has
        "k" = true := by
  have hc : Chain.WellFormed ⟨stagesOf (limitSample.1 ++ limitSample.2.1 ++ limitSample.2.2)⟩ := by
    decide
  have hmakes : Makes limitSample.1 "k" := ⟨.type (.scalar .float), rfl, by simp⟩
  have hrereads : Rereads Contract.transformRequires limitSample.2.1 "k" := ⟨1, _, rfl, rfl, rfl⟩
  have hnot : ¬ Makes limitSample.1 "limit" := by
    rintro ⟨p, hp, -⟩
    cases hp
  have hback : ¬ FallsBack limitSample.2.1 "limit" := by
    rintro ⟨hnone, -⟩
    cases hnone
  obtain ⟨hinput, hfit, -⟩ := required_grouped "group" hc "limit"
  obtain ⟨-, -, hlost, -⟩ := required_grouped "group" hc "k"
  have haround : ∀ l ∈ limitSample.1 ++ limitSample.2.2,
      l.2.transformRequires.has "k" = false := by decide
  exact ⟨hinput fun h => hnot h.1, hfit (fun h => hnot h.1) (.inr hback),
    hlost hmakes hrereads haround⟩

/-- A stage that makes a name, one that drops it, and one that reads it. -/
def droppingSample : List (String × Contract) :=
  [("make", { produced := [("k", .type (.scalar .float))] }),
    ("clear", { produced := [("k", .drop)] }),
    ("read", { transformRequires := [("k", .scalar .float)] })]

/-- A stage that makes a name, and one that fits on it and transforms another. -/
def fittingSample : List (String × Contract) :=
  [("make", { produced := [("k", .type (.scalar .float))] }),
    ("model", {
      fitRequires := [("k", .scalar .float)]
      transformRequires := [("x", .scalar .string)] })]

/-- Grouping does not always keep what a chain requires: not for transforming, where the last two
    stages of the first sample are a group, and not for fitting, where both of the second are. -/
theorem not_required_grouped :
    (Chain.WellFormed ⟨stagesOf droppingSample⟩ ∧
      (grouped "group" (droppingSample.take 1) (droppingSample.drop 1) []).WellFormed ∧
      Chain.requiredInput ⟨stagesOf droppingSample⟩ = [("k", .scalar .float)] ∧
      (grouped "group" (droppingSample.take 1) (droppingSample.drop 1) []).requiredInput = []) ∧
    (Chain.WellFormed ⟨stagesOf fittingSample⟩ ∧ (grouped "group" [] fittingSample []).WellFormed ∧
      Chain.requiredFitInput ⟨stagesOf fittingSample⟩ = [] ∧
      (grouped "group" [] fittingSample []).requiredFitInput = [("x", .scalar .string)]) :=
  ⟨⟨by decide, by decide, rfl, rfl⟩, by decide, by decide, rfl, rfl⟩

end Chain

end SchemaFlow
