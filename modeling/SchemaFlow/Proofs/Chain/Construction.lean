import SchemaFlow.Proofs.Contract.Revalidation
import SchemaFlow.Proofs.Contract.WellFormed

/-!
# How a chain is built

A row of links is refused for its names: the row is empty, or some name is no text, is empty, holds
the separator or stands twice, and then the first such name is told. What is derived from a row that
is not refused is a contract like any other: it is settled, so reading it as a declaration gives the
same contract, and the chain can be a link itself, to any depth.

One more row is refused. A link called like the ancestor lends its record's parts to the tables of the
derived contract, and a later link that is called like one of these parts finds its name taken.

* `Link.Made.settled`: the contract of a link is settled, at any depth.
* `Chain.ofLinks_outcome`: what becomes of a row of links.
-/

namespace SchemaFlow

/-! ## 1. Derived contracts are settled -/

namespace Production

/-- **Settled productions compose to a settled one.** -/
theorem Settled.compose {l : Production} (hl : l.Settled) {before : Option Production}
    (hb : ∀ p, before = some p → p.Settled) : (compose before l).Settled := by
  induction hl generalizing before with
  | type t => exact .type t
  | set t => exact .set t
  | drop => exact .drop
  | @modify fields htable hfields ih =>
      cases before with
      | none => exact .modify htable hfields
      | some e =>
          cases hb e rfl with
          | type t => exact .set _
          | set t => exact .set _
          | drop => exact .set _
          | modify htable' hfields' =>
              refine settled_modify_iff.2 (composeFields_induction ?_ ⟨htable', hfields'⟩)
              intro e he before hbefore
              refine hbefore.insert (htable.proper e he) (ih e he fun p hp => ?_)
              exact hbefore.productions _ (Entries.mem_of_find? hp)

end Production

/-- **The contract of settled contracts is settled.** -/
theorem settled_derivedContract {cs : List (String × Contract)}
    (hcs : ∀ e ∈ cs, e.1 ≠ "" ∧ e.2.Settled) : (derivedContract cs).Settled := by
  have hcontracts : ∀ c ∈ cs.map Prod.snd, c.Settled := by
    intro c hc
    obtain ⟨e, he, rfl⟩ := List.mem_map.1 hc
    exact (hcs e he).2
  have hrequirement : ∀ {demand : Contract → Schema},
      (∀ c ∈ cs.map Prod.snd, Entries.Settled (demand c)) →
        Entries.Settled (requirement demand (cs.map Prod.snd)) := fun hdemand =>
    requirement_induction .nil fun c hc e he _ hs => hs.insert ((hdemand c hc).proper e he) e.2
  have hrecords : ∀ pick : Contract → Schema, Entries.Settled (recordEntries pick cs) := fun pick =>
    recordEntries_induction .nil fun e he hn _ hs => hs.insert ⟨(hcs e he).1, hn⟩ _
  have hproduced : Produced.Settled (netEffect (cs.map Prod.snd)) :=
    foldl_addEffect_induction (fun c hc e he _ hb =>
      hb.insert ((hcontracts c hc).produced.table.proper e he)
        (((hcontracts c hc).produced.productions e he).compose fun p hp =>
          hb.productions _ (Entries.mem_of_find? hp))) .nil
  exact {
    fitRequires := hrequirement fun c hc => by
      unfold Contract.fitDemand
      split
      · exact (hcontracts c hc).transformRequires
      · exact (hcontracts c hc).fitRequires
    transformRequires := hrequirement fun c hc => (hcontracts c hc).transformRequires
    fitParameters := hrecords Contract.fitParameters
    fittedState := hrecords Contract.fittedState
    produced := hproduced }

/-! ## 2. Names -/

namespace Chain

/-- What is wrong with the name of a link that stands behind links of other names. -/
inductive NameDefect (earlier : List String) : Value → Defect → Prop
  | missing {v : Value} : (∀ name, v = .text name → name = "") →
      NameDefect earlier v .stageNameMissing
  | separated {name : String} : name ≠ "" → separator ∈ name.toList →
      NameDefect earlier (.text name) (.stageNameSeparated name)
  | taken {name : String} : LinkName name → name ∈ earlier →
      NameDefect earlier (.text name) (.stageNameTaken name)

/-- Links as they are given to be built, each under a text. -/
def asGiven (links : List (String × Link)) : List (Value × Link) :=
  links.map fun l => (.text l.1, l.2)

/-- There is nothing wrong with the names of links. -/
structure Named (links : List (String × Link)) : Prop where
  distinct : Entries.Distinct links
  proper : ∀ l ∈ links, LinkName l.1

theorem Named.of_cons {l : String × Link} {links : List (String × Link)}
    (h : Named (l :: links)) : LinkName l.1 ∧ l.1 ∉ Entries.names links ∧ Named links :=
  ⟨h.proper l List.mem_cons_self, (List.nodup_cons.1 h.distinct).1,
    (List.nodup_cons.1 h.distinct).2, fun k hk => h.proper k (List.mem_cons_of_mem _ hk)⟩

theorem NameDefect.congr {earlier earlier' : List String} {v : Value} {d : Defect}
    (h : NameDefect earlier v d) (hsame : ∀ name, name ∈ earlier → name ∈ earlier') :
    NameDefect earlier' v d := by
  cases h with
  | missing hv => exact .missing hv
  | separated hne hsep => exact .separated hne hsep
  | taken hname hmem => exact .taken hname (hsame _ hmem)

/-- A name of the row may stand before the row as well as in it. -/
theorem NameDefect.move {name : String} {l : Link} {before : List (String × Link)}
    {seen : List String} {v : Value} {d : Defect} :
    NameDefect (Entries.names before ++ name :: seen) v d ↔
      NameDefect (Entries.names ((name, l) :: before) ++ seen) v d := by
  have hsame : ∀ s, s ∈ Entries.names before ++ name :: seen ↔
      s ∈ Entries.names ((name, l) :: before) ++ seen := by
    intro s
    simp only [Entries.names, List.map_cons, List.cons_append, List.mem_append, List.mem_cons]
    tauto
  exact ⟨fun h => h.congr fun s => (hsame s).1, fun h => h.congr fun s => (hsame s).2⟩

/-- What stands behind a link is new also once that link is seen. -/
theorem Named.rest_new {name : String} {l : Link} {links : List (String × Link)}
    {seen : List String} (h : Named ((name, l) :: links)) (hnew : ∀ k ∈ links, k.1 ∉ seen) :
    ∀ k ∈ links, k.1 ∉ name :: seen := by
  intro k hk hmem
  rcases List.mem_cons.1 hmem with he | hmem
  · exact h.of_cons.2.1 (List.mem_map.2 ⟨k, hk, he⟩)
  · exact hnew k hk hmem

/-- A name with a defect is refused for it. -/
theorem checkName_defect {path : String} {seen : List String} {v : Value} {d : Defect}
    (h : NameDefect seen v d) : checkName path seen v = refuse path d := by
  cases h with
  | missing hv =>
      cases v with
      | text name =>
          obtain rfl := hv name rfl
          rfl
      | _ => rfl
  | separated hne hsep =>
      rw [checkName, if_neg hne, if_pos (by simpa using hsep)]
  | taken hname hmem =>
      rw [checkName, if_neg hname.1, if_neg (by simpa using hname.2), if_pos (by simpa using hmem)]

/-- A proper name that is new passes. -/
theorem checkName_eq_ok {path : String} {seen : List String} {name : String}
    (hname : LinkName name) (hnew : name ∉ seen) : checkName path seen (.text name) = .ok name := by
  rw [checkName, if_neg hname.1, if_neg (by simpa using hname.2), if_neg (by simpa using hnew)]

/-- A name has a defect, or it is a proper name that is new. -/
theorem defect_or_linkName (earlier : List String) (v : Value) :
    (∃ d, NameDefect earlier v d) ∨ ∃ name, v = .text name ∧ LinkName name ∧ name ∉ earlier := by
  cases v with
  | text name =>
      by_cases hempty : name = ""
      · exact Or.inl ⟨_, .missing fun s hs => by cases hs; exact hempty⟩
      · by_cases hsep : separator ∈ name.toList
        · exact Or.inl ⟨_, .separated hempty hsep⟩
        · by_cases hmem : name ∈ earlier
          · exact Or.inl ⟨_, .taken ⟨hempty, hsep⟩ hmem⟩
          · exact Or.inr ⟨name, rfl, ⟨hempty, hsep⟩, hmem⟩
  | _ => exact Or.inl ⟨_, .missing fun s hs => by cases hs⟩

theorem named_nil : Named [] := ⟨List.nodup_nil, fun _ h => absurd h List.not_mem_nil⟩

theorem Named.cons {name : String} {l : Link} {links : List (String × Link)} (hname : LinkName name)
    (hfirst : ∀ k ∈ links, k.1 ≠ name) (h : Named links) : Named ((name, l) :: links) where
  distinct := by
    refine Entries.distinct_cons_iff.2 ⟨Entries.find?_eq_none_iff.2 fun hmem => ?_, h.distinct⟩
    obtain ⟨k, hk, hkname⟩ := List.mem_map.1 hmem
    exact hfirst k hk hkname
  proper := List.forall_mem_cons.2 ⟨hname, h.proper⟩

/-- The names of a row pass, or one of them is the first that does not. -/
theorem named_or_defect : ∀ (given : List (Value × Link)) (seen : List String),
    (∃ links, given = asGiven links ∧ Named links ∧ ∀ l ∈ links, l.1 ∉ seen) ∨
      ∃ before v l after d, given = asGiven before ++ (v, l) :: after ∧ Named before ∧
        (∀ k ∈ before, k.1 ∉ seen) ∧ NameDefect (Entries.names before ++ seen) v d
  | [], _ => Or.inl ⟨[], rfl, named_nil, fun _ h => absurd h List.not_mem_nil⟩
  | (v, l) :: given, seen => by
      rcases defect_or_linkName seen v with ⟨d, hd⟩ | ⟨name, rfl, hname, hnew⟩
      · exact Or.inr ⟨[], v, l, given, d, rfl, named_nil, fun _ h => absurd h List.not_mem_nil, hd⟩
      · rcases named_or_defect given (name :: seen) with
          ⟨links, rfl, hnamed, hlater⟩ | ⟨before, w, m, after, d, rfl, hnamed, hlater, hd⟩
        · refine Or.inl ⟨(name, l) :: links, rfl, hnamed.cons hname fun k hk he => ?_,
            List.forall_mem_cons.2 ⟨hnew, fun k hk hmem => ?_⟩⟩
          · exact hlater k hk (he ▸ List.mem_cons_self)
          · exact hlater k hk (List.mem_cons_of_mem _ hmem)
        · refine Or.inr ⟨(name, l) :: before, w, m, after, d, rfl,
            hnamed.cons hname fun k hk he => ?_,
            List.forall_mem_cons.2 ⟨hnew, fun k hk hmem => ?_⟩, NameDefect.move.1 hd⟩
          · exact hlater k hk (he ▸ List.mem_cons_self)
          · exact hlater k hk (List.mem_cons_of_mem _ hmem)

/-- Names that pass. -/
theorem checkNames_named : ∀ {links : List (String × Link)} {index : Nat} {seen : List String},
    Named links → (∀ l ∈ links, l.1 ∉ seen) → checkNames index seen (asGiven links) = .ok links
  | [], _, _, _, _ => rfl
  | (name, l) :: links, index, seen, hnamed, hnew => by
      obtain ⟨hname, -, hrest⟩ := hnamed.of_cons
      obtain ⟨hseen, hnew⟩ := List.forall_mem_cons.1 hnew
      have ih : checkNames (index + 1) (name :: seen) (asGiven links) = .ok links :=
        checkNames_named hrest (hnamed.rest_new hnew)
      rw [asGiven] at ih
      rw [asGiven, List.map_cons, checkNames, checkName_eq_ok hname hseen, Step.ok_bind, ih]
      rfl

/-- **The first name with a defect is told**, with its place. -/
theorem checkNames_defect {v : Value} {l : Link} {after : List (Value × Link)} {d : Defect} :
    ∀ {before : List (String × Link)} {index : Nat} {seen : List String}, Named before →
      (∀ k ∈ before, k.1 ∉ seen) → NameDefect (Entries.names before ++ seen) v d →
        checkNames index seen (asGiven before ++ (v, l) :: after) =
          refuse s!"links[{index + before.length}]" d
  | [], index, seen, _, _, hd => by
      have hfirst : checkName s!"links[{index}]" seen v = refuse s!"links[{index}]" d :=
        checkName_defect hd
      rw [asGiven, List.map_nil, List.nil_append, checkNames, hfirst]
      rfl
  | (name, k) :: before, index, seen, hnamed, hnew, hd => by
      obtain ⟨hname, -, hrest⟩ := hnamed.of_cons
      obtain ⟨hseen, hnew⟩ := List.forall_mem_cons.1 hnew
      have ih : checkNames (index + 1) (name :: seen) (asGiven before ++ (v, l) :: after) =
          refuse s!"links[{index + 1 + before.length}]" d :=
        checkNames_defect hrest (hnamed.rest_new hnew) (NameDefect.move.2 hd)
      have hplace : index + ((name, k) :: before).length = index + 1 + before.length := by
        rw [List.length_cons]
        omega
      rw [asGiven] at ih
      rw [asGiven, List.map_cons, List.cons_append, checkNames, checkName_eq_ok hname hseen,
        Step.ok_bind, ih, hplace]
      rfl

end Chain

/-! ## 3. Records -/

/-- The names of a record's parts. -/
def recordParts : List String := TypeSpec.emptyRecord.partNames

/-- The record of a link is the ancestor of the table that the record of a later link goes into, under
    the name of one of its parts. -/
def Seals (pick : Contract → Schema) (e later : String × Contract) : Prop :=
  e.1 = ancestorName ∧ pick e.2 ≠ [] ∧ later.1 ∈ recordParts ∧ pick later.2 ≠ []

/-- No link seals the name of a later one. -/
def Unsealed (pick : Contract → Schema) (cs : List (String × Contract)) : Prop :=
  cs.Pairwise fun e later => ¬ Seals pick e later

theorem ancestorName_not_recordPart : ancestorName ∉ recordParts := by decide

section Store

variable {pick : Contract → Schema} {name : String} {c : Contract}

theorem storeRecord_skip (hc : pick c = []) (name : String) (f : Filling TypeSpec) :
    storeRecord pick name c f = .ok f := by
  rw [storeRecord, if_pos (by simp [hc])]

theorem storeRecord_ancestor (hc : pick c ≠ []) (f : Filling TypeSpec) :
    storeRecord pick ancestorName c f =
      .ok { f with ancestor := some (.record (pick c) none), kept := recordParts } := by
  rw [storeRecord, if_neg (by simpa using hc)]
  simp only [Filling.store_ancestor]
  rfl

theorem storeRecord_free (hc : pick c ≠ []) (hn : name ≠ ancestorName) {f : Filling TypeSpec}
    (hfree : name ∉ f.kept) :
    storeRecord pick name c f =
      .ok { f with entries := f.entries.insert name (.record (pick c) none) } := by
  rw [storeRecord, if_neg (by simpa using hc)]
  simp only [Filling.store, if_neg hn]
  rw [if_neg (by simp [hfree])]

theorem storeRecord_kept (hc : pick c ≠ []) (hn : name ≠ ancestorName) {f : Filling TypeSpec}
    (hkept : name ∈ f.kept) (hnew : f.entries.has name = false) :
    storeRecord pick name c f = .error (.sealed name) := by
  rw [storeRecord, if_neg (by simpa using hc)]
  simp only [Filling.store, if_neg hn]
  rw [if_pos (by simp [hkept, hnew])]

end Store

/-- **Records are made** where no name of theirs is kept, or sealed on the way. -/
theorem recordsOf_returns {pick : Contract → Schema} :
    ∀ {cs : List (String × Contract)} {f : Filling TypeSpec}, Unsealed pick cs →
      (∀ e ∈ cs, pick e.2 ≠ [] → e.1 ∉ f.kept) → ∃ f', recordsOf pick cs f = .ok f'
  | [], f, _, _ => ⟨f, rfl⟩
  | (name, c) :: cs, f, hall, hfreeAll => by
      obtain ⟨hseals, hcs⟩ := List.pairwise_cons.1 hall
      obtain ⟨hname, hfree⟩ := List.forall_mem_cons.1 hfreeAll
      by_cases hc : pick c = []
      · rw [recordsOf, storeRecord_skip hc, Step.ok_bind]
        exact recordsOf_returns hcs hfree
      · by_cases hn : name = ancestorName
        · subst hn
          rw [recordsOf, storeRecord_ancestor hc, Step.ok_bind]
          exact recordsOf_returns hcs fun e he hpick hmem =>
            hseals e he ⟨rfl, hc, hmem, hpick⟩
        · rw [recordsOf, storeRecord_free hc hn (hname hc), Step.ok_bind]
          exact recordsOf_returns hcs hfree

/-- **A record whose name is kept, or sealed on the way, is refused.** -/
theorem recordsOf_sealed {pick : Contract → Schema} :
    ∀ {cs : List (String × Contract)} {f : Filling TypeSpec}, Entries.Distinct cs →
      (∀ e ∈ cs, f.entries.has e.1 = false) → (∀ name ∈ f.kept, name ∈ recordParts) →
      (¬ Unsealed pick cs ∨ ∃ e ∈ cs, pick e.2 ≠ [] ∧ e.1 ∈ f.kept) →
        ∃ name ∈ recordParts, recordsOf pick cs f = .error (.sealed name)
  | [], _, _, _, _, h => by
      rcases h with h | ⟨e, he, -⟩
      · exact absurd List.Pairwise.nil h
      · cases he
  | (name, c) :: cs, f, hdistinct, hnewAll, hkept, h => by
      obtain ⟨hfirst, hd⟩ := Entries.distinct_cons_iff.1 hdistinct
      obtain ⟨hname, hnew⟩ := List.forall_mem_cons.1 hnewAll
      -- a link that seals nothing leaves what is wrong to later ones
      have hlater : (∀ e, ¬ Seals pick (name, c) e) → (pick c ≠ [] → name ∉ f.kept) →
          ¬ Unsealed pick cs ∨ ∃ e ∈ cs, pick e.2 ≠ [] ∧ e.1 ∈ f.kept := by
        intro hnone hfree
        rcases h with hseals | ⟨e, he, hpick, hmem⟩
        · exact Or.inl fun hcs => hseals (List.pairwise_cons.2 ⟨fun e _ => hnone e, hcs⟩)
        · rcases List.mem_cons.1 he with rfl | he
          · exact absurd hmem (hfree hpick)
          · exact Or.inr ⟨e, he, hpick, hmem⟩
      by_cases hc : pick c = []
      · rw [recordsOf, storeRecord_skip hc, Step.ok_bind]
        exact recordsOf_sealed hd hnew hkept
          (hlater (fun _ hs => hs.2.1 hc) fun hne => absurd hc hne)
      · by_cases hn : name = ancestorName
        · subst hn
          rw [recordsOf, storeRecord_ancestor hc, Step.ok_bind]
          refine recordsOf_sealed hd hnew (fun name hmem => hmem) ?_
          by_cases hcs : Unsealed pick cs
          · rcases h with hseals | ⟨e, he, hpick, hmem⟩
            · have hsealed : ¬ ∀ e ∈ cs, ¬ Seals pick (ancestorName, c) e := fun hnone =>
                hseals (List.pairwise_cons.2 ⟨hnone, hcs⟩)
              simp only [not_forall, not_not] at hsealed
              obtain ⟨e, he, hs⟩ := hsealed
              exact Or.inr ⟨e, he, hs.2.2.2, hs.2.2.1⟩
            · rcases List.mem_cons.1 he with rfl | he
              · exact absurd (hkept _ hmem) ancestorName_not_recordPart
              · exact Or.inr ⟨e, he, hpick, hkept _ hmem⟩
          · exact Or.inl hcs
        · by_cases hmem : name ∈ f.kept
          · refine ⟨name, hkept name hmem, ?_⟩
            rw [recordsOf, storeRecord_kept hc hn hmem hname]
            rfl
          · rw [recordsOf, storeRecord_free hc hn hmem, Step.ok_bind]
            refine recordsOf_sealed hd (fun e he => ?_) hkept
              (hlater (fun _ hs => hn hs.1) fun _ => hmem)
            have hne : e.1 ≠ name := by
              rintro rfl
              exact Entries.find?_eq_none_iff.1 hfirst (List.mem_map_of_mem he)
            rw [Entries.has, Entries.find?_insert, if_neg hne]
            exact hnew e he

/-- What the records of a row fail with is a name of a record's part. -/
theorem recordsOf_error {pick : Contract → Schema} {cs : List (String × Contract)}
    (hd : Entries.Distinct cs) {fault : Fault} (h : recordsOf pick cs {} = .error fault) :
    ∃ name ∈ recordParts, fault = .sealed name := by
  have hseals : ¬ Unsealed pick cs := by
    intro hfree
    obtain ⟨f, hf⟩ := recordsOf_returns (f := {}) hfree fun _ _ _ => List.not_mem_nil
    rw [h] at hf
    cases hf
  obtain ⟨name, hname, hsealed⟩ := recordsOf_sealed (f := {}) hd (fun _ _ => rfl)
    (fun _ h => absurd h List.not_mem_nil) (Or.inl hseals)
  rw [h] at hsealed
  exact ⟨name, hname, Except.error.inj hsealed⟩

namespace Chain

/-- **Parameters and state are filled side by side**, each as if it were filled by itself. -/
theorem fillRecords_eq_ok_iff : ∀ {cs : List (String × Contract)}
    {f h : Filling TypeSpec} {r : Filling TypeSpec × Filling TypeSpec},
    fillRecords cs f h = .ok r ↔
      recordsOf Contract.fitParameters cs f = .ok r.1 ∧ recordsOf Contract.fittedState cs h = .ok r.2
  | [], f, h, (f', h') => by simp [fillRecords, recordsOf]
  | (name, c) :: cs, f, h, r => by
      simp only [fillRecords, recordsOf, Step.bind_eq_ok, fillRecords_eq_ok_iff]
      constructor
      · rintro ⟨f', hf', h', hh', hf, hh⟩
        exact ⟨⟨f', hf', hf⟩, h', hh', hh⟩
      · rintro ⟨⟨f', hf', hf⟩, h', hh', hh⟩
        exact ⟨f', hf', h', hh', hf, hh⟩

/-- What they fail with, one of them fails with by itself. -/
theorem recordsOf_of_fillRecords : ∀ {cs : List (String × Contract)} {f h : Filling TypeSpec}
    {fault : Fault}, fillRecords cs f h = .error fault →
      recordsOf Contract.fitParameters cs f = .error fault ∨
        recordsOf Contract.fittedState cs h = .error fault
  | (name, c) :: cs, f, h, fault, hfault => by
      rw [fillRecords] at hfault
      rw [recordsOf, recordsOf]
      cases hf : storeRecord Contract.fitParameters name c f with
      | error e =>
          rw [hf] at hfault
          obtain rfl : e = fault := Except.error.inj hfault
          exact Or.inl rfl
      | ok f' =>
          rw [hf, Step.ok_bind] at hfault
          cases hh : storeRecord Contract.fittedState name c h with
          | error e =>
              rw [hh] at hfault
              obtain rfl : e = fault := Except.error.inj hfault
              exact Or.inr rfl
          | ok h' =>
              rw [hh, Step.ok_bind] at hfault
              exact recordsOf_of_fillRecords hfault

theorem checkRecords_returns {cs : List (String × Contract)}
    (hparameters : Unsealed Contract.fitParameters cs)
    (hstate : Unsealed Contract.fittedState cs) : checkRecords cs = .ok () := by
  obtain ⟨f, hf⟩ := recordsOf_returns (f := {}) hparameters fun _ _ _ => List.not_mem_nil
  obtain ⟨h, hh⟩ := recordsOf_returns (f := {}) hstate fun _ _ _ => List.not_mem_nil
  rw [checkRecords, fillRecords_eq_ok_iff (r := (f, h)) |>.2 ⟨hf, hh⟩]
  rfl

theorem checkRecords_sealed {cs : List (String × Contract)} (hd : Entries.Distinct cs)
    (hseals : ¬ (Unsealed Contract.fitParameters cs ∧ Unsealed Contract.fittedState cs)) :
    ∃ name ∈ recordParts, checkRecords cs = .error (.sealed name) := by
  -- records that can all be made are not sealed
  have hfree : ∀ {pick : Contract → Schema} {f : Filling TypeSpec}, recordsOf pick cs {} = .ok f →
      Unsealed pick cs := by
    intro pick f hf
    by_contra hsealed
    obtain ⟨name, -, hrefused⟩ := recordsOf_sealed (f := {}) hd (fun _ _ => rfl)
      (fun _ h => absurd h List.not_mem_nil) (Or.inl hsealed)
    rw [hf] at hrefused
    cases hrefused
  cases hfill : fillRecords cs {} {} with
  | ok r =>
      obtain ⟨hf, hh⟩ := fillRecords_eq_ok_iff.1 hfill
      exact absurd ⟨hfree hf, hfree hh⟩ hseals
  | error fault =>
      obtain ⟨name, hname, rfl⟩ : ∃ name ∈ recordParts, fault = .sealed name :=
        (recordsOf_of_fillRecords hfill).elim (fun h => recordsOf_error hd h)
          fun h => recordsOf_error hd h
      refine ⟨name, hname, ?_⟩
      rw [checkRecords, hfill]
      rfl

end Chain

/-! ## 4. Links that were made -/

/-- A link as it can be made: a stage whose contract was read from a declaration, or a chain that was
    built of links that were made. -/
inductive Link.Made : Link → Prop
  | stage {g : Graph} {declaration name : Value} {c : Contract} :
      g.contractNamed declaration name = .ok c → Made (.stage c)
  | chain {given : List (Value × Link)} {c : Chain} : (∀ l ∈ given, Made l.2) →
      Chain.ofLinks given = .ok c → Made c.asLink

/-- A settled contract is that of a stage that can be made. -/
theorem Contract.Settled.made {c : Contract} (hc : c.Settled) : (Link.stage c).Made := by
  have hread : Graph.contractNamed _ _ .absent = .ok c :=
    Graph.contractOf_addContract {} hc "contract"
  exact .stage hread

namespace Chain

/-- A row of links is built where their names pass and no record is sealed. -/
theorem ofLinks_named {links : List (String × Link)} (hne : links ≠ []) (hnamed : Named links) :
    ofLinks (asGiven links) = (do
      checkRecords (namedContracts links)
      .ok ⟨links⟩) := by
  have hnames : checkNames 0 [] (asGiven links) = .ok links :=
    checkNames_named hnamed fun _ _ => List.not_mem_nil
  rw [ofLinks, hnames, Step.ok_bind, if_neg (by simpa using hne)]

theorem named_of_ofLinks {given : List (Value × Link)} {c : Chain} (h : ofLinks given = .ok c) :
    given = asGiven c.links ∧ Named c.links := by
  rcases named_or_defect given [] with
    ⟨links, rfl, hnamed, -⟩ | ⟨before, v, l, after, d, rfl, hnamed, hnew, hd⟩
  · by_cases hne : links = []
    · subst hne
      cases h
    · rw [ofLinks_named hne hnamed] at h
      obtain ⟨-, -, hmade⟩ := Step.bind_eq_ok.1 h
      cases hmade
      exact ⟨rfl, hnamed⟩
  · rw [ofLinks, checkNames_defect hnamed hnew hd] at h
    cases h

end Chain

/-- The contract of named links is settled where theirs are. -/
theorem settled_contract_chain {links : List (String × Link)} (hnamed : Chain.Named links)
    (hlinks : ∀ l ∈ links, l.2.contract.Settled) : (Link.chain links).contract.Settled := by
  rw [Link.contract, namedContracts_eq_map]
  refine settled_derivedContract fun e he => ?_
  obtain ⟨l, hl, rfl⟩ := List.mem_map.1 he
  exact ⟨(hnamed.proper l hl).1, hlinks l hl⟩

/-- **The contract of a link that was made is settled**, at any depth. -/
theorem Link.Made.settled {l : Link} (hl : l.Made) : l.contract.Settled := by
  induction hl with
  | stage hc => exact Graph.settled_contractNamed hc
  | chain _ hbuilt ih =>
      obtain ⟨rfl, hnamed⟩ := Chain.named_of_ofLinks hbuilt
      exact settled_contract_chain hnamed fun l hl => ih _ (List.mem_map_of_mem hl)

/-! ## 5. What becomes of a row of links -/

namespace Chain

/-- The first link whose name has a defect, and the defect. -/
def Offends (given : List (Value × Link)) (i : Nat) (d : Defect) : Prop :=
  ∃ before v l after, given = asGiven before ++ (v, l) :: after ∧ before.length = i ∧
    Named before ∧ NameDefect (Entries.names before) v d

theorem checkNames_offends {given : List (Value × Link)} {i : Nat} {d : Defect}
    (h : Offends given i d) : checkNames 0 [] given = refuse s!"links[{i}]" d := by
  obtain ⟨before, v, l, after, rfl, rfl, hnamed, hd⟩ := h
  have hnames : checkNames 0 [] (asGiven before ++ (v, l) :: after) =
      refuse s!"links[{0 + before.length}]" d :=
    checkNames_defect hnamed (fun _ _ => List.not_mem_nil) (by rwa [List.append_nil])
  rwa [Nat.zero_add] at hnames

/-- **A row of links is refused for the first name with a defect.** -/
theorem ofLinks_offends {given : List (Value × Link)} {i : Nat} {d : Defect}
    (h : Offends given i d) : ofLinks given = refuse s!"links[{i}]" d := by
  rw [ofLinks, checkNames_offends h]
  rfl

/-- A row of links has a name with a defect, or all its names pass. -/
theorem offends_or_named (given : List (Value × Link)) :
    (∃ i d, Offends given i d) ∨ ∃ links, given = asGiven links ∧ Named links := by
  rcases named_or_defect given [] with
    ⟨links, rfl, hnamed, -⟩ | ⟨before, v, l, after, d, rfl, hnamed, -, hd⟩
  · exact Or.inr ⟨links, rfl, hnamed⟩
  · exact Or.inl ⟨before.length, d, before, v, l, after, rfl, rfl, hnamed,
      by rwa [List.append_nil] at hd⟩

/-- Where all names pass none has a defect. -/
theorem Named.not_offends {links : List (String × Link)} (hnamed : Named links) {i : Nat}
    {d : Defect} : ¬ Offends (asGiven links) i d := by
  intro h
  have hnames : checkNames 0 [] (asGiven links) = .ok links :=
    checkNames_named hnamed fun _ _ => List.not_mem_nil
  rw [checkNames_offends h] at hnames
  cases hnames

/-- The contracts of the links that are given under texts. -/
def contractsGiven (given : List (Value × Link)) : List (String × Contract) :=
  given.filterMap fun l =>
    match l.1 with
    | .text name => some (name, l.2.contract)
    | _ => none

theorem contractsGiven_asGiven (links : List (String × Link)) :
    contractsGiven (asGiven links) = namedContracts links := by
  induction links with
  | nil => rfl
  | cons l links ih => exact congrArg ((l.1, l.2.contract) :: ·) ih

/-- The record of one link, of its parameters or of its state, seals the name of another. -/
def Sealing (given : List (Value × Link)) : Prop :=
  ¬ (Unsealed Contract.fitParameters (contractsGiven given) ∧
    Unsealed Contract.fittedState (contractsGiven given))

theorem distinct_namedContracts {links : List (String × Link)} (hnamed : Named links) :
    Entries.Distinct (namedContracts links) := by
  have hnames : Entries.names (namedContracts links) = Entries.names links := by
    rw [namedContracts_eq_map, Entries.names, List.map_map]
    rfl
  rw [Entries.Distinct, hnames]
  exact hnamed.distinct

/-- A row whose names pass is refused where a record is sealed. -/
theorem ofLinks_sealing {links : List (String × Link)} (hne : links ≠ []) (hnamed : Named links)
    (hseals : Sealing (asGiven links)) :
    ∃ name ∈ recordParts, ofLinks (asGiven links) = .error (.sealed name) := by
  rw [Sealing, contractsGiven_asGiven] at hseals
  obtain ⟨name, hname, hrecords⟩ := checkRecords_sealed (distinct_namedContracts hnamed) hseals
  refine ⟨name, hname, ?_⟩
  rw [ofLinks_named hne hnamed, hrecords]
  rfl

/-- A row whose names pass, and in which no record is sealed, is built. -/
theorem ofLinks_returns {links : List (String × Link)} (hne : links ≠ []) (hnamed : Named links)
    (hseals : ¬ Sealing (asGiven links)) : ofLinks (asGiven links) = .ok ⟨links⟩ := by
  rw [Sealing, contractsGiven_asGiven, not_not] at hseals
  rw [ofLinks_named hne hnamed, checkRecords_returns hseals.1 hseals.2]
  rfl

/-- **What becomes of a row of links.** It is refused if it is empty, if a name has a defect, or if a
    record is sealed, and otherwise built: a chain of the given links that can be a link itself, and
    whose contract is read back from the declaration that it is. -/
theorem ofLinks_outcome {given : List (Value × Link)} (hmade : ∀ l ∈ given, l.2.Made) :
    ((∃ fault, ofLinks given = .error fault) ↔
      given = [] ∨ (∃ i d, Offends given i d) ∨ Sealing given) ∧
    (given = [] → ofLinks given = refuseHere .noStages) ∧
    (∀ i d, Offends given i d → ofLinks given = refuse s!"links[{i}]" d) ∧
    (given ≠ [] → (∀ i d, ¬ Offends given i d) → Sealing given →
      ∃ name ∈ recordParts, ofLinks given = .error (.sealed name)) ∧
    ∀ c, ofLinks given = .ok c → given = asGiven c.links ∧ c.asLink.Made ∧
      (Link.stage c.contract).Made ∧
      ∀ (g : Graph) (name : String),
        (g.addContract c.contract).1.contractOf (g.addContract c.contract).2 name =
          .ok c.contract := by
  have hempty : given = [] → ofLinks given = refuseHere .noStages := by
    rintro rfl
    rfl
  have hsealing : given ≠ [] → (∀ i d, ¬ Offends given i d) → Sealing given →
      ∃ name ∈ recordParts, ofLinks given = .error (.sealed name) := by
    intro hne hnone hseals
    obtain ⟨i, d, h⟩ | ⟨links, rfl, hnamed⟩ := offends_or_named given
    · exact absurd h (hnone i d)
    · exact ofLinks_sealing (by simpa [asGiven] using hne) hnamed hseals
  refine ⟨⟨?_, ?_⟩, hempty, fun i d => ofLinks_offends, hsealing, fun c hc => ?_⟩
  · -- what is refused has one of the three reasons
    rintro ⟨fault, hfault⟩
    obtain h | ⟨links, rfl, hnamed⟩ := offends_or_named given
    · exact Or.inr (Or.inl h)
    · by_cases hne : links = []
      · exact Or.inl (by rw [hne]; rfl)
      · refine Or.inr (Or.inr (Classical.byContradiction fun hseals => ?_))
        rw [ofLinks_returns hne hnamed hseals] at hfault
        cases hfault
  · intro h
    by_cases hne : given = []
    · exact ⟨_, hempty hne⟩
    · by_cases hoffends : ∃ i d, Offends given i d
      · obtain ⟨i, d, hd⟩ := hoffends
        exact ⟨_, ofLinks_offends hd⟩
      · simp only [not_exists] at hoffends
        obtain hnil | ⟨i, d, hd⟩ | hseals := h
        · exact absurd hnil hne
        · exact absurd hd (hoffends i d)
        · obtain ⟨name, -, hrefused⟩ := hsealing hne hoffends hseals
          exact ⟨_, hrefused⟩
  · have hchain : c.asLink.Made := .chain hmade hc
    exact ⟨(named_of_ofLinks hc).1, hchain, Contract.Settled.made hchain.settled,
      fun g name => g.contractOf_addContract hchain.settled name⟩

/-- A stage with state, and a chain whose one stage takes a parameter and edits a record. -/
def seededRow : List (String × Link) :=
  [("scale", .stage { transformRequires := [("raw", .scalar .float)]
                      fittedState := [("mean", .scalar .float)] }),
    ("model", .chain [("score", .stage {
      fitParameters := [("rate", .scalar .float)]
      produced := [("row", .modify [("seen", .set (.scalar .boolean))])] })])]

/-- The row is built, and the contract of what is built is read back. -/
theorem ofLinks_outcome_seeded : ofLinks (asGiven seededRow) = .ok ⟨seededRow⟩ ∧
    (Link.chain seededRow).Made ∧ (Graph.addContract {} (Chain.mk seededRow).contract).1.contractOf
      (Graph.addContract {} (Chain.mk seededRow).contract).2 "chain" =
        .ok (Chain.mk seededRow).contract := by
  have hinner : ∀ l ∈ asGiven [("score", .stage {
      fitParameters := [("rate", .scalar .float)]
      produced := [("row", .modify [("seen", .set (.scalar .boolean))])] })], l.2.Made := by
    intro l hl
    obtain rfl := List.mem_singleton.1 hl
    exact Contract.Settled.made (by decide)
  have hmade : ∀ l ∈ asGiven seededRow, l.2.Made :=
    List.forall_mem_cons.2 ⟨Contract.Settled.made (by decide),
      List.forall_mem_cons.2 ⟨.chain hinner rfl, fun _ h => absurd h List.not_mem_nil⟩⟩
  obtain ⟨-, hchain, -, hread⟩ := (ofLinks_outcome hmade).2.2.2.2 _ rfl
  exact ⟨rfl, hchain, hread {} "chain"⟩

/-- Names alone do not decide: a parameter of a stage called like the ancestor seals the name of the
    stage behind it. -/
theorem not_refused_by_names : ¬ ∀ given : List (Value × Link), (∀ l ∈ given, l.2.Made) →
    ((∃ fault, ofLinks given = .error fault) ↔ given = [] ∨ ∃ i d, Offends given i d) := by
  intro h
  have hmade : ∀ l ∈ asGiven [("__proto__", .stage { fitParameters := [("p", .scalar .float)] }),
      ("kind", .stage { fitParameters := [("q", .scalar .float)] })], l.2.Made :=
    List.forall_mem_cons.2 ⟨Contract.Settled.made (by decide),
      List.forall_mem_cons.2 ⟨Contract.Settled.made (by decide),
        fun _ h => absurd h List.not_mem_nil⟩⟩
  have hnamed : Named [("__proto__", .stage { fitParameters := [("p", .scalar .float)] }),
      ("kind", .stage { fitParameters := [("q", .scalar .float)] })] := ⟨by decide, by decide⟩
  obtain hnil | ⟨i, d, hd⟩ := (h _ hmade).1 ⟨.sealed "kind", rfl⟩
  · cases hnil
  · exact hnamed.not_offends hd

end Chain

end SchemaFlow
