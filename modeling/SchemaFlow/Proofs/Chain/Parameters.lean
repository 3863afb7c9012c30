import SchemaFlow.Proofs.Chain.Walk
import SchemaFlow.Proofs.Contract.Parameters

/-!
# Parameters of a chain

A chain is given its parameters as a tree: a table of stages, and under the name of a nested chain a
table of its stages again. Such a tree suits a chain (`Chain.Takes`) when each name in it is a link
where it stands, what is given to a nested chain holds tables only, and what is left for each stage
suits the stage. A fit check finds nothing about parameters exactly then
(`Chain.checkFit_parameters`), so no parameter is lost on its way down.

* `Source.Gives`: what names are looked up in gives what a table has, and nothing else. This holds
  of the table that a chain is given and of the one that it hands on, although names such as
  `toString` are found in either.
* `passLinks_takes`: the induction over the links, for any table that is handed to them.
-/

namespace SchemaFlow

/-! ## 1. Plain tables -/

namespace Graph

variable {g : Graph} {v : Value}

/-- A plain table descends from the founder of all objects or from nothing. -/
theorem behind_plain (hplain : g.isPlain v = true) :
    g.behind? v = none ∨ g.behind? v = some (.founder .object) := by
  unfold isPlain at hplain
  rw [Bool.and_eq_true] at hplain
  have hbehind := hplain.2
  split at hbehind
  · exact Or.inl ‹_›
  · exact Or.inr ‹_›
  · cases hbehind

theorem line_plain (hplain : g.isPlain v = true) :
    g.line v = [v] ∨ g.line v = [v, .founder .object] := by
  rw [line, show g.size + 4 = (g.size + 3) + 1 from rfl, lineFrom]
  rcases behind_plain hplain with h | h
  · rw [h]
    exact Or.inl rfl
  · rw [h, show g.size + 3 = (g.size + 2) + 1 from rfl]
    exact Or.inr rfl

/-- A plain table that is no founder has no parts of its own but those that it lists. -/
theorem ownPart_plain (hplain : g.isPlain v = true) (hv : ∀ f, v ≠ .founder f) (name : String) :
    g.workedOut? v name = none ∧ g.ownPart v name =
      match (g.listed v).find? name with
      | some w => if g.isSealed v then .fixed w else .free w
      | none => .absent := by
  cases v with
  | node id =>
      unfold workedOut? ownPart unlisted
      cases hnode : g.node id with
      | list items => simp [isPlain, behind?, hnode] at hplain
      | map entries => simp [isPlain, behind?, hnode] at hplain
      | object lineage entries =>
          refine ⟨by simp only [hnode], ?_⟩
          cases hfind : (g.listed (.node id)).find? name with
          | some w => simp only [hfind]
          | none => simp only [hfind, hnode]
  | founder f => exact absurd rfl (hv f)
  | type t => exact ⟨rfl, rfl⟩
  | fieldTable fs ancestor => exact ⟨rfl, rfl⟩
  | drop => exact ⟨rfl, rfl⟩
  | _ => simp [isPlain, Value.isObject, behind?] at hplain

/-- What a plain table lists is found in it: it is asked before anything behind it. -/
theorem find_plain_of_some (hplain : g.isPlain v = true) (hv : ∀ f, v ≠ .founder f) {name : String}
    {w : Value} (hfind : (g.listed v).find? name = some w) :
    g.find v name = .fixed w ∨ g.find v name = .free w := by
  obtain ⟨hworked, hown⟩ := ownPart_plain hplain hv name
  obtain ⟨rest, hline⟩ := g.line_eq_cons v
  rw [hfind] at hown
  unfold find
  rw [hworked, hline, List.foldr_cons, hown]
  cases g.isSealed v with
  | true => exact Or.inl rfl
  | false => exact Or.inr rfl

/-- What a plain table does not list is nowhere, or a function that all objects share. -/
theorem find_plain_of_none (hplain : g.isPlain v = true) (hv : ∀ f, v ≠ .founder f) {name : String}
    (hname : name ≠ ancestorName) (hfind : (g.listed v).find? name = none) :
    g.find v name = .absent ∨ g.find v name = .free .function := by
  obtain ⟨hworked, hown⟩ := ownPart_plain hplain hv name
  rw [hfind] at hown
  unfold find
  rw [hworked]
  rcases line_plain hplain with hline | hline
  · rw [hline]
    simp only [List.foldr_cons, List.foldr_nil, hown]
    exact Or.inl rfl
  · rw [hline]
    simp only [List.foldr_cons, List.foldr_nil, hown, Found.absent_or]
    have hshared : g.ownPart (.founder .object) name = Family.find .object name := rfl
    rw [hshared]
    rcases Family.find_object hname with h | h
    · exact Or.inr (by rw [h]; rfl)
    · exact Or.inl (by rw [h]; rfl)

/-- What is found in a plain table is a part of it; what is found nowhere is absent. -/
theorem part_of_found (hplain : g.isPlain v = true) {name : String} {w : Value}
    (hfound : g.find v name = .fixed w ∨ g.find v name = .free w ∨
      g.find v name = .absent ∧ w = .absent) : g.part v name = .ok w := by
  unfold part
  split
  · cases hplain
  · cases hplain
  · cases hplain
  · rcases hfound with h | h | ⟨h, rfl⟩ <;> rw [h]

/-- **A plain table gives what it lists**; what all objects share is a function at most. -/
theorem part_plain (hplain : g.isPlain v = true) (hv : ∀ f, v ≠ .founder f) {name : String}
    (hname : name ≠ ancestorName) :
    g.part v name = .ok (valueAt (g.listed v) name) ∨
      ((g.listed v).find? name = none ∧ g.part v name = .ok .function) := by
  unfold valueAt
  cases hfind : (g.listed v).find? name with
  | some w =>
      exact Or.inl (part_of_found hplain ((find_plain_of_some hplain hv hfind).imp_right Or.inl))
  | none =>
      rcases find_plain_of_none hplain hv hname hfind with h | h
      · exact Or.inl (part_of_found hplain (Or.inr (Or.inr ⟨h, rfl⟩)))
      · exact Or.inr ⟨rfl, part_of_found hplain (Or.inr (Or.inl h))⟩

/-- A plain table that is no founder is read by what it lists. -/
theorem table_plain (hplain : g.isPlain v = true) (hv : ∀ f, v ≠ .founder f) :
    g.table v = g.listed v := by
  have habsent : v.orEmpty = v := by
    cases v <;> first | rfl | cases hplain
  have hmap : g.mapEntries? v = none := by
    cases v with
    | node id =>
        unfold Graph.mapEntries?
        cases hnode : g.node id with
        | map entries => simp [Graph.isPlain, Graph.behind?, hnode] at hplain
        | _ => simp [hnode]
    | _ => rfl
  have hlisted : g.partsOf v = .ok (g.listed v) := by
    cases v with
    | absent => cases hplain
    | hole => cases hplain
    | null => cases hplain
    | founder f => exact absurd rfl (hv f)
    | _ => rfl
  unfold Graph.table Graph.payload
  rw [habsent, hmap]
  simp only [hlisted]

end Graph

/-! ## 2. What is given under a name -/

/-- Nothing, or a value that can carry parameters. -/
def Graph.Given (g : Graph) (v : Value) : Prop := v.isAbsent = true ∨ g.isPayload v = true

/-- A source gives under each name what a table has there; where the table has nothing it may give a
    function that all objects share. -/
structure Source.Gives (g : Graph) (s : Source) (entries : Entries Value) : Prop where
  names : ∀ name, name ∈ s.names g ↔ name ∈ entries.names
  part : ∀ name, name ≠ ancestorName → s.part g name = .ok (valueAt entries name) ∨
    (entries.find? name = none ∧ s.part g name = .ok .function)

namespace Source

variable {g : Graph}

/-- A plain table gives its entries. -/
theorem gives_value {v : Value} (hplain : g.isPlain v = true) (hv : ∀ f, v ≠ .founder f) :
    (Source.value v).Gives g (g.table v) := by
  rw [Graph.table_plain hplain hv]
  exact ⟨fun name => Iff.rfl, fun name hname => Graph.part_plain hplain hv hname⟩

/-- A table that is handed on gives its entries. -/
theorem gives_bag {entries table : Entries Value}
    (h : ∀ name, Entries.find? entries name = Entries.find? table name) :
    (Source.bag { entries := entries }).Gives g table where
  names name := by
    have hiff : name ∉ entries.names ↔ name ∉ table.names := by
      rw [← Entries.find?_eq_none_iff, h, Entries.find?_eq_none_iff]
    exact not_iff_not.1 hiff
  part name hname := by
    unfold Source.part Bag.part
    simp only [h, valueAt]
    cases hfind : Entries.find? table name with
    | some v => exact Or.inl rfl
    | none =>
        simp only [Bag.findBehind, Graph.find_founderObject]
        rcases Family.find_object hname with hshared | hshared
        · exact Or.inr ⟨trivial, by rw [hshared]⟩
        · exact Or.inl (by rw [hshared]; rfl)

/-- What a stage is given can be read as the table that is there for it. -/
theorem Gives.stageParameters {s : Source} {entries : Entries Value} (h : s.Gives g entries)
    {name : String} (hname : name ≠ ancestorName) (hgiven : g.Given (valueAt entries name))
    (htabled : g.Tabled (valueAt entries name)) :
    ∃ own, stageParameters g s name = .ok own ∧
      g.payload own.orEmpty = .ok (g.table (valueAt entries name)) ∧
      g.parameterEntries own.orEmpty = .ok (Graph.textKeys (g.table (valueAt entries name))) := by
  unfold SchemaFlow.stageParameters
  rcases h.part name hname with hpart | ⟨hnone, hpart⟩
  · rw [Step.bind_of_ok hpart]
    refine ⟨(valueAt entries name).orEmpty, ?_, ?_, ?_⟩
    · generalize valueAt entries name = v at hgiven
      cases v with
      | null =>
          unfold Graph.Given at hgiven
          simp [Graph.isPayload, Graph.mapEntries?, Graph.isPlain, Value.isObject, Value.isAbsent]
            at hgiven
      | _ => rfl
    all_goals
      have hagain : (valueAt entries name).orEmpty.orEmpty = (valueAt entries name).orEmpty := by
        cases valueAt entries name <;> rfl
      rw [hagain]
    · exact htabled.payload
    · exact htabled.parameterEntries
  · rw [Step.bind_of_ok hpart, valueAt, hnone]
    exact ⟨.function, rfl, rfl, rfl⟩

end Source

/-! ## 3. What a nested chain hands on -/

/-- The entries of a table that can carry parameters themselves. -/
def Graph.handed (g : Graph) (entries : Entries Value) : Entries Value :=
  entries.filter fun e => g.isPayload e.2

theorem Graph.handed_given (g : Graph) (entries : Entries Value) (name : String) :
    g.Given (valueAt (g.handed entries) name) := by
  unfold valueAt
  cases hfind : (g.handed entries).find? name with
  | none => exact Or.inl rfl
  | some v => exact Or.inr (List.mem_filter.1 (Entries.mem_of_find? hfind)).2

theorem Graph.handed_eq_self {g : Graph} {entries : Entries Value}
    (h : ∀ e ∈ entries, g.isPayload e.2 = true) : g.handed entries = entries :=
  List.filter_eq_self.2 h

/-- The findings about entries that are not handed on. -/
def strays (g : Graph) (stage : String) (entries : Entries Value) : List Violation :=
  (entries.filter fun e => !g.isPayload e.2).map fun e =>
    ⟨some (stage ++ separator.toString ++ e.1), .parametersNotATable⟩

/-- **A nested chain hands on the entries that carry parameters, and reports the others.** -/
theorem handOn_textKeys (g : Graph) (stage : String) : ∀ {entries : Entries Value},
    (∀ e ∈ entries, e.1 ≠ ancestorName) → ∀ (before : Entries Value) (found : List Violation),
      handOn g stage (Graph.textKeys entries) { entries := before } found =
        .ok ({ entries := (g.handed entries).foldl (fun b e => b.insert e.1 e.2) before },
          found ++ strays g stage entries)
  | [], _, before, found => by
      simp [Graph.textKeys, handOn, Graph.handed, strays]
  | (name, v) :: entries, h, before, found => by
      obtain ⟨hname, hrest⟩ := List.forall_mem_cons.1 h
      have ih := handOn_textKeys g stage hrest
      have hkey : g.nameOfKey? (.text name) = .ok (some name) := by
        simp [Graph.nameOfKey?, Graph.textPart, Graph.textPartAt]
      have hadded : g.addedText (.text name) = .ok name := by
        simp [Graph.addedText, Graph.textPart, Graph.textPartAt]
      unfold Graph.textKeys at ih ⊢
      rw [List.map_cons, handOn]
      cases hpayload : g.isPayload v with
      | true =>
          rw [if_pos rfl, Step.bind_of_ok hkey]
          dsimp only
          rw [Step.bind_of_ok (Bag.store_eq_insert g before v hname), ih]
          simp [Graph.handed, strays, hpayload]
      | false =>
          rw [if_neg Bool.false_ne_true, Step.bind_of_ok hadded, ih]
          simp [Graph.handed, strays, hpayload]

/-- Tables with distinct names are the same to look-ups when they are filled anew. -/
theorem find?_foldl_insert (name : String) : ∀ {entries : Entries Value}, entries.Distinct →
    ∀ before : Entries Value,
      Entries.find? (entries.foldl (fun b e => b.insert e.1 e.2) before) name =
        (entries.find? name).or (before.find? name)
  | [], _, before => by simp
  | (key, v) :: entries, hd, before => by
      obtain ⟨hkey, hd⟩ := Entries.distinct_cons_iff.1 hd
      rw [List.foldl_cons, find?_foldl_insert name hd, Entries.find?_insert, Entries.find?_cons]
      by_cases hk : key = name
      · subst hk
        simp [hkey]
      · have hk' : ¬ name = key := fun e => hk e.symm
        simp [hk, hk']

theorem quiet_strays {g : Graph} {stage : String} {entries : Entries Value} :
    Quiet (strays g stage entries) ↔ ∀ e ∈ entries, g.isPayload e.2 = true := by
  unfold Quiet strays
  constructor
  · intro h e he
    by_contra hnot
    have hmem : e ∈ entries.filter fun e => !g.isPayload e.2 :=
      List.mem_filter.2 ⟨he, by simpa using hnot⟩
    exact h _ (List.mem_map_of_mem hmem) rfl
  · intro h w hw
    obtain ⟨e, he, rfl⟩ := List.mem_map.1 hw
    obtain ⟨hmem, hnot⟩ := List.mem_filter.1 he
    rw [h e hmem] at hnot
    cases hnot

/-- Nothing is found about stages that are not there when all names are links. -/
theorem quiet_unknownStages {g : Graph} {s : Source} {entries : Entries Value}
    (h : s.Gives g entries) (names : List String) (lead : String) :
    Quiet (unknownStages g names lead (some s)) ↔ ∀ e ∈ entries, e.1 ∈ names := by
  unfold Quiet unknownStages
  constructor
  · intro hquiet e he
    by_contra hnot
    have hlisted : e.1 ∈ s.names g := (h.names e.1).2 (List.mem_map_of_mem he)
    have hmem : e.1 ∈ (s.names g).filter fun name => !names.contains name :=
      List.mem_filter.2 ⟨hlisted, by simpa using hnot⟩
    exact hquiet _ (List.mem_map_of_mem hmem) rfl
  · intro hall w hw
    obtain ⟨name, hname, rfl⟩ := List.mem_map.1 hw
    obtain ⟨hlisted, hnot⟩ := List.mem_filter.1 hname
    obtain ⟨e, he, rfl⟩ := List.mem_map.1 ((h.names name).1 hlisted)
    have hmem : names.contains e.1 = true := by simpa using hall e he
    rw [hmem] at hnot
    cases hnot

/-- What a nested chain is given is listed and handed on. -/
theorem nestedParameters_of_part {g : Graph} {s : Source} {name : String} {v : Value}
    (hpart : s.part g name = .ok v) (hpresent : v.isAbsent = false) {entries : Entries Value}
    (hentries : g.parameterEntries v = .ok (Graph.textKeys entries)) {stage : String} {b : Bag}
    {found : List Violation} (hhand : handOn g stage (Graph.textKeys entries) {} [] = .ok (b, found)) :
    nestedParameters g stage name (some s) = .ok (some (.bag b), found) := by
  unfold nestedParameters
  dsimp only
  rw [Step.bind_of_ok hpart]
  cases v with
  | absent => cases hpresent
  | _ =>
      dsimp only
      rw [Step.bind_of_ok hentries, Step.bind_of_ok hhand]

/-- **What a nested chain is given goes on to its links**, and what is no table is reported. -/
theorem Source.Gives.nestedParameters {g : Graph} {s : Source} {entries : Entries Value}
    (h : s.Gives g entries) (stage : String) {name : String} (hname : name ≠ ancestorName)
    (htabled : g.Tabled (valueAt entries name))
    (hproper : ∀ e ∈ g.table (valueAt entries name), e.1 ≠ ancestorName) :
    ∃ inner, SchemaFlow.nestedParameters g stage name (some s) =
        .ok (some inner, strays g stage (g.table (valueAt entries name))) ∧
      inner.Gives g (g.handed (g.table (valueAt entries name))) := by
  have hnothing : Source.Gives g (.bag {}) [] := Source.gives_bag fun _ => rfl
  rcases h.part name hname with hpart | ⟨hnone, hpart⟩
  · generalize valueAt entries name = v at hpart htabled hproper ⊢
    cases habsent : v.isAbsent with
    | true =>
        obtain rfl : v = .absent := by
          cases v with
          | absent => rfl
          | _ => cases habsent
        refine ⟨.bag {}, ?_, hnothing⟩
        unfold SchemaFlow.nestedParameters
        dsimp only
        rw [Step.bind_of_ok hpart]
        rfl
    | false =>
        have hsame : v.orEmpty = v := by
          unfold Value.orEmpty
          rw [habsent, if_neg Bool.false_ne_true]
        have hlisted := htabled.parameterEntries
        rw [hsame] at hlisted
        have hhand := handOn_textKeys g stage hproper [] []
        rw [List.nil_append] at hhand
        refine ⟨_, nestedParameters_of_part hpart habsent hlisted hhand,
          Source.gives_bag fun key => ?_⟩
        have hdistinct : Entries.Distinct (g.handed (g.table v)) :=
          (List.Sublist.map Prod.fst List.filter_sublist).nodup htabled.distinct
        rw [find?_foldl_insert key hdistinct, Entries.find?_nil, Option.or_none]
  · have hlisted : g.parameterEntries .function = .ok (Graph.textKeys []) := rfl
    rw [valueAt, hnone]
    exact ⟨.bag {}, nestedParameters_of_part hpart rfl hlisted rfl, hnothing⟩

/-! ## 4. Trees of parameters -/

mutual

/-- Parameters suit a link. Those of a stage are declared and conform; those of a chain are tables
    for its links and suit these. -/
def Link.Takes (g : Graph) (v : Value) : Link → Prop
  | .stage c => c.Takes g (g.table v)
  | .chain links =>
    (∀ e ∈ g.table v, g.isPayload e.2 = true ∧ e.1 ∈ links.map Prod.fst) ∧
      linksTake g (g.table v) links

/-- What a table has for each of several links suits it; a link that it does not name is given
    nothing. -/
def linksTake (g : Graph) (entries : Entries Value) : List (String × Link) → Prop
  | [] => True
  | (name, l) :: rest => Link.Takes g (valueAt entries name) l ∧ linksTake g entries rest

end

/-- Parameters suit a nested chain when all of them are handed on and these suit its links. -/
theorem Link.takes_chain_iff {g : Graph} {v : Value} {links : List (String × Link)} :
    ((∀ e ∈ g.table v, g.isPayload e.2 = true) ∧
        (∀ e ∈ g.handed (g.table v), e.1 ∈ links.map Prod.fst)) ∧
      linksTake g (g.handed (g.table v)) links ↔ Link.Takes g v (.chain links) := by
  rw [Link.Takes]
  constructor
  · rintro ⟨⟨hpayload, hnames⟩, htakes⟩
    rw [Graph.handed_eq_self hpayload] at hnames htakes
    exact ⟨fun e he => ⟨hpayload e he, hnames e he⟩, htakes⟩
  · rintro ⟨hentries, htakes⟩
    have hpayload : ∀ e ∈ g.table v, g.isPayload e.2 = true := fun e he => (hentries e he).1
    rw [Graph.handed_eq_self hpayload]
    exact ⟨⟨hpayload, fun e he => (hentries e he).2⟩, htakes⟩

/-- Parameters suit a chain: each name is a link, and what it has suits the link. -/
def Chain.Takes (g : Graph) (c : Chain) (v : Value) : Prop :=
  (∀ e ∈ g.table v, e.1 ∈ c.names) ∧ linksTake g (g.table v) c.links

mutual

/-- What a link is given can be read all the way down: its tables list texts once each, none of them
    the name of the ancestor, and the parameters of each stage can be observed. -/
def Link.Reads (g : Graph) (v : Value) : Link → Prop
  | .stage c => g.Tabled v ∧ c.Observes g (g.table v)
  | .chain links =>
    g.Tabled v ∧ (∀ e ∈ g.table v, e.1 ≠ ancestorName) ∧ linksRead g (g.handed (g.table v)) links

/-- What a table hands on to each of several links can be read. -/
def linksRead (g : Graph) (entries : Entries Value) : List (String × Link) → Prop
  | [] => True
  | (name, l) :: rest =>
    name ≠ ancestorName ∧ Link.Reads g (valueAt entries name) l ∧ linksRead g entries rest

end

/-! ## 5. The check -/

section Check

variable {g : Graph} {demanded : List (String × TypeSpec)}

mutual

theorem passLink_takes : ∀ {l : Link}, l.WellFormed → ∀ {s : Source} {entries : Entries Value}
    (lead : String) {name : String} {data : Entries Value}, s.Gives g entries →
      name ≠ ancestorName → g.Given (valueAt entries name) →
      Link.Reads g (valueAt entries name) l →
      (∀ p ∈ l.leaves (lead ++ name), ∀ e ∈ p.2.fitRequires, e ∈ demanded) →
      g.Answers demanded data →
      ∃ r, passLink g { phase := .fit } lead (some s) name l data = .ok r ∧
        g.Answers demanded r.data ∧
        (Quiet r.violations ↔ Link.Takes g (valueAt entries name) l)
  | .stage c, hl, s, entries, lead, name, data, hs, hname, hgiven, hread, hsub, hdata => by
      have hc : c.WellFormed := by
        cases hl with
        | stage hc => exact hc
      rw [Link.Reads] at hread
      have hinput : ∀ e ∈ c.fitRequires, ∀ v, data.find? e.1 = some v →
          ∃ t, g.observe (some e.2) v = .ok t := fun e he v hv =>
        hdata.observed e.1 e.2 v (hsub (lead ++ name, c) (by simp [Link.leaves]) e he) hv
      obtain ⟨own, hown, hpayload, hentries⟩ := hs.stageParameters hname hgiven hread.1
      obtain ⟨vs, hvs, hquiet⟩ :=
        Contract.quiet_checkFit hc hinput hpayload hentries hread.2 (some (lead ++ name))
      obtain ⟨next, hnext, _⟩ := effectOn_eq hc.produced.distinct hdata.readable
      have hstage : stageViolations g { phase := .fit } c (lead ++ name) name (some s) data =
          .ok vs := by
        unfold stageViolations
        dsimp only
        rw [Step.bind_of_ok hown]
        exact hvs
      refine ⟨_, by rw [passLink, Step.bind_of_ok hstage, Step.bind_of_ok hnext], ?_, ?_⟩
      · exact hdata.effectOn hc.produced.distinct hnext
      · rw [Link.Takes]
        exact hquiet
  | .chain links, hl, s, entries, lead, name, data, hs, hname, hgiven, hread, hsub, hdata => by
      have hlinks : ∀ e ∈ links, e.2.WellFormed := by
        cases hl with
        | chain _ _ _ hlinks => exact hlinks
      rw [Link.Reads] at hread
      obtain ⟨htabled, hproper, hread⟩ := hread
      obtain ⟨inner, hinner, hgives⟩ :=
        hs.nestedParameters (lead ++ name) hname htabled hproper
      obtain ⟨sub, hsubpass, hanswers, hquiet⟩ := passLinks_takes hlinks
        (lead ++ name ++ separator.toString) hgives (fun key => g.handed_given _ key) hread
        (by simpa [Link.leaves] using hsub) hdata
      have hpass : passLink g { phase := .fit } lead (some s) name (.chain links) data =
          .ok { sub with violations := strays g (lead ++ name) (g.table (valueAt entries name)) ++
            unknownStages g (links.map Prod.fst) (lead ++ name ++ separator.toString) (some inner) ++
              sub.violations } := by
        rw [passLink, Step.bind_of_ok hinner]
        dsimp only
        rw [Step.bind_of_ok hsubpass]
      refine ⟨_, hpass, hanswers, ?_⟩
      rw [quiet_append, quiet_append, quiet_strays, quiet_unknownStages hgives, hquiet]
      exact Link.takes_chain_iff

/-- **A pass through links finds nothing about parameters exactly when these suit the links.** -/
theorem passLinks_takes : ∀ {links : List (String × Link)}, (∀ e ∈ links, e.2.WellFormed) →
    ∀ {s : Source} {entries : Entries Value} (lead : String) {data : Entries Value},
      s.Gives g entries → (∀ name, g.Given (valueAt entries name)) → linksRead g entries links →
      (∀ p ∈ linkLeaves lead links, ∀ e ∈ p.2.fitRequires, e ∈ demanded) →
      g.Answers demanded data →
      ∃ r, passLinks g { phase := .fit } lead (some s) links data = .ok r ∧
        g.Answers demanded r.data ∧ (Quiet r.violations ↔ linksTake g entries links)
  | [], _, s, entries, lead, data, _, _, _, _, hdata =>
      ⟨{ data := data }, by rw [passLinks], hdata, by simp [Quiet, linksTake]⟩
  | (name, l) :: rest, hlinks, s, entries, lead, data, hs, hgiven, hread, hsub, hdata => by
      obtain ⟨hl, hrest⟩ := List.forall_mem_cons.1 hlinks
      rw [linksRead] at hread
      obtain ⟨hname, hfirst, hlater⟩ := hread
      rw [linkLeaves, List.forall_mem_append] at hsub
      obtain ⟨first, hpass, hanswers, hquiet⟩ :=
        passLink_takes hl lead hs hname (hgiven name) hfirst hsub.1 hdata
      obtain ⟨later, hpasses, hbehind, hquiets⟩ :=
        passLinks_takes hrest lead hs hgiven hlater hsub.2 hanswers
      refine ⟨_, by rw [passLinks, Step.bind_of_ok hpass, Step.bind_of_ok hpasses], ?_, ?_⟩
      · exact hbehind
      · rw [linksTake, quiet_append, hquiet, hquiets]

end

end Check

/-- What a chain can be given as its parameters: nothing, or a plain table that is no founder, and
    under its names nothing but plain tables and maps. -/
structure Graph.PerStage (g : Graph) (v : Value) : Prop where
  plain : v.isAbsent = true ∨ (g.isPlain v = true ∧ ∀ f, v ≠ .founder f)
  contents : ∀ e ∈ g.table v, g.Given e.2

/-- A chain looks its parameters up in the table that it is given. -/
theorem Graph.PerStage.gives {g : Graph} {v : Value} (h : g.PerStage v) :
    ∃ s, Chain.parametersOf v = some s ∧ s.Gives g (g.table v) := by
  rcases h.plain with habsent | ⟨hplain, hfounder⟩
  · cases v with
    | absent => exact ⟨.bag {}, rfl, Source.gives_bag fun _ => rfl⟩
    | _ => cases habsent
  · refine ⟨.value v, ?_, Source.gives_value hplain hfounder⟩
    unfold Chain.parametersOf
    cases v with
    | node id => rfl
    | founder f => rfl
    | type t => rfl
    | fieldTable fs ancestor => rfl
    | drop => rfl
    | _ => simp [Graph.isPlain, Value.isObject, Graph.behind?] at hplain

/-- A fit pass returns, and finds nothing about parameters exactly when these suit the chain. -/
theorem Chain.pass_takes {g : Graph} {c : Chain} (hc : c.WellFormed) {data : Entries Value}
    (hdata : g.Answers (demandsOf .fit c.leaves) data) {v : Value} (hv : g.PerStage v)
    (hread : linksRead g (g.table v) c.links) :
    ∃ r, c.pass g { phase := .fit } (Chain.parametersOf v) data = .ok r ∧
      (Quiet r.violations ↔ c.Takes g v) := by
  obtain ⟨s, hs, hgives⟩ := hv.gives
  obtain ⟨_, _, _, hlinks⟩ := Chain.wellFormed_iff.1 hc
  have hgiven : ∀ name, g.Given (valueAt (g.table v) name) := by
    intro name
    unfold valueAt
    cases hfind : (g.table v).find? name with
    | none => exact Or.inl rfl
    | some w => exact hv.contents (name, w) (Entries.mem_of_find? hfind)
  have hdemands : ∀ p ∈ linkLeaves "" c.links, ∀ e ∈ p.2.fitRequires,
      e ∈ demandsOf .fit c.leaves := fun p hp e he => mem_demandsOf hp he
  obtain ⟨r, hr, _, hquiet⟩ := passLinks_takes hlinks "" hgives hgiven hread hdemands hdata
  have hpass : c.pass g { phase := .fit } (some s) data =
      .ok { r with violations := unknownStages g c.names "" (some s) ++ r.violations } := by
    unfold Chain.pass
    rw [Step.bind_of_ok hr]
  refine ⟨_, by rw [hs, hpass], ?_⟩
  rw [quiet_append, quiet_unknownStages hgives, hquiet]
  exact Iff.rfl

/-- **No parameter of a chain is silently ignored.** A fit check returns, and finds nothing about
    parameters exactly when each of them has its place in the chain and conforms there. -/
theorem Chain.checkFit_parameters {g : Graph} {c : Chain} (hc : c.WellFormed)
    {data : Entries Value} (hdata : g.Answers (demandsOf .fit c.leaves) data) {v : Value}
    (hv : g.PerStage v) (hread : linksRead g (g.table v) c.links) :
    ∃ vs, c.checkFit g data (Chain.parametersOf v) = .ok vs ∧ (Quiet vs ↔ c.Takes g v) := by
  obtain ⟨r, hr, hquiet⟩ := Chain.pass_takes hc hdata hv hread
  refine ⟨r.violations, ?_, hquiet⟩
  unfold Chain.checkFit
  rw [Step.bind_of_ok hr]

/-! ## 6. A chain in a chain -/

/-- A stage with a parameter. -/
def Contract.splitting : Contract :=
  { fitRequires := [("rows", .scalar .string)], fitParameters := [("seed", .scalar .integer)] }

/-- Another one. -/
def Contract.learning : Contract := { fitParameters := [("rate", .scalar .float)] }

/-- Both in a chain, the first of them in a nested one beside a stage whose name all objects know. -/
def Chain.seededSample : Chain :=
  ⟨[("prep", .chain [("split", .stage .splitting), ("toString", .stage {})]),
    ("model", .stage .learning)]⟩

/-- Parameters for both, those of the nested chain in a map. The rate is a text. -/
def Graph.seededSample : Graph :=
  ⟨#[.object .plain [("prep", .node 1), ("model", .node 3)], .map [(.text "split", .node 2)],
    .object .plain [("seed", .whole 7)], .object .plain [("rate", .text "high")]]⟩

/-- An object with distinct names is read by its entries. -/
theorem Graph.tabled_object {g : Graph} {id : Nat} {lineage : Lineage} {entries : Entries Value}
    (hnode : g.node id = .object lineage entries) (hd : entries.Distinct) :
    g.Tabled (.node id) := by
  have hmap : g.mapEntries? (.node id) = none := by
    unfold Graph.mapEntries?
    simp only [hnode]
  have hpayload : g.payload (.node id) = .ok entries := by
    unfold Graph.payload
    rw [hmap]
    simp only [Graph.partsOf, Graph.listed, hnode]
  have htable : g.table (.node id) = entries := by
    have hsame : (Value.node id).orEmpty = .node id := rfl
    unfold Graph.table
    rw [hsame, hpayload]
  refine ⟨⟨entries, hpayload⟩, fun _ h => ?_, htable ▸ hd⟩
  rw [hmap] at h
  cases h

theorem Graph.seededSample_map : Graph.seededSample.Tabled (.node 1) := by
  refine ⟨⟨_, rfl⟩, fun entries h => ?_, by decide⟩
  obtain rfl : [(Value.text "split", Value.node 2)] = entries := Option.some.inj h
  exact fun e he => ⟨"split", by rw [List.mem_singleton.1 he]⟩

theorem Chain.seededSample_reads :
    linksRead Graph.seededSample (Graph.seededSample.table (.node 0)) seededSample.links := by
  have hproper : ∀ name ∈ ["prep", "split", "toString", "model"], name ≠ ancestorName := by decide
  have hsplit : Contract.splitting.Observes Graph.seededSample [("seed", .whole 7)] := by
    intro e he _
    rw [List.mem_singleton.1 he]
    exact ⟨.scalar .integer, by simp [Graph.observe, Graph.observeAt, leafType]⟩
  have hmodel : Contract.learning.Observes Graph.seededSample [("rate", .text "high")] := by
    intro e he _
    rw [List.mem_singleton.1 he]
    exact Graph.seededSample.observable_text "high" _
  have hnothing : Contract.Observes Graph.seededSample {} [] := fun e he => by cases he
  have hnested : linksRead Graph.seededSample [("split", .node 2)]
      [("split", .stage .splitting), ("toString", .stage {})] :=
    ⟨hproper _ (by decide), ⟨Graph.tabled_object rfl (by decide), hsplit⟩,
      hproper _ (by decide), ⟨Graph.seededSample.tabled_absent, hnothing⟩, trivial⟩
  have hnames : ∀ e ∈ Graph.seededSample.table (.node 1), e.1 ≠ ancestorName := by decide
  exact ⟨hproper _ (by decide),
    ⟨Graph.seededSample_map, hnames, hnested⟩,
    hproper _ (by decide), ⟨Graph.tabled_object rfl (by decide), hmodel⟩, trivial⟩

/-- The sample, with a rate that does not conform and nothing for the stage that all objects know. -/
theorem Chain.checkFit_parameters_seeded :
    seededSample.WellFormed ∧
      Graph.seededSample.Answers (demandsOf .fit seededSample.leaves) [("rows", .text "x")] ∧
      Graph.seededSample.PerStage (.node 0) ∧
      linksRead Graph.seededSample (Graph.seededSample.table (.node 0)) seededSample.links ∧
      ∃ vs, seededSample.checkFit Graph.seededSample [("rows", .text "x")]
          (parametersOf (.node 0)) = .ok vs ∧
        (Quiet vs ↔ seededSample.Takes Graph.seededSample (.node 0)) := by
  have hchain : seededSample.WellFormed := by decide
  have hdata : Graph.seededSample.Answers (demandsOf .fit seededSample.leaves)
      [("rows", .text "x")] := .of_observable fun e he => by
    rw [List.mem_singleton.1 he]
    exact Graph.seededSample.observable_text "x"
  have hparameters : Graph.seededSample.PerStage (.node 0) := by
    refine ⟨Or.inr ⟨rfl, by simp⟩, fun e he => Or.inr ?_⟩
    have hentries : e ∈ [("prep", Value.node 1), ("model", .node 3)] := he
    simp only [List.mem_cons, List.not_mem_nil, or_false] at hentries
    rcases hentries with rfl | rfl <;> rfl
  exact ⟨hchain, hdata, hparameters, seededSample_reads,
    checkFit_parameters hchain hdata hparameters seededSample_reads⟩

end SchemaFlow
