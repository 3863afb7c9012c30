import SchemaFlow.Proofs.Chain.Parameters
import SchemaFlow.Proofs.Declaration.Inversion
import SchemaFlow.Proofs.Observation.Plain
import SchemaFlow.Proofs.TypeSpec.NormalForm

/-!
# What a declaration declares

A compiled chain has what its declaration lists: the stages in order, in each slot the names that
stand there, for each of them the type that its text spells or the production that its content
declares, and the fields of a modification at every depth. One name is lost wherever it stands, that
of the ancestor, for what is stored under it is no entry.

* `Graph.DeclaresProduction`, `Graph.DeclaresStage`: what a value declares.
* `Notation.Lists`: what a record lists.
* `Graph.chainOf_declares`: a chain that is compiled has exactly what is declared.
-/

namespace SchemaFlow

/-! ## 1. What a notation lists -/

namespace Notation

open Reading

/-- The fields that a record notation lists, but that of the ancestor. -/
def ownFields (fs : List (String × Notation)) : List (String × Notation) :=
  fs.filter fun f => f.1 ≠ ancestorName

/-- A notation lists what a type has: the same shape, kinds and label, and in a record exactly the
    fields that it lists, in order and but that of the ancestor. -/
inductive Lists : Notation → TypeSpec → Prop
  | scalar (k : ScalarKind) : Lists (.scalar k) (.scalar k)
  | sequence {n : Notation} {t : TypeSpec} : Lists n t → Lists (.sequence n) (.sequence t)
  | array (k : ScalarKind) {sizes : List (Option Nat)} {ds : List Dimension} :
      toDimensions 0 sizes = .ok ds → Lists (.array k sizes) (.array k ds)
  | mapping (k : ScalarKind) {n : Notation} {t : TypeSpec} :
      Lists n t → Lists (.mapping k n) (.mapping k t)
  | handle (label : String) : Lists (.handle label) (.handle label)
  | record {fs : List (String × Notation)} {types : List (String × TypeSpec)} :
      types.map Prod.fst = (ownFields fs).map Prod.fst →
      (∀ e ∈ (ownFields fs).zip types, Lists e.1.2 e.2.2) →
      Lists (.record fs) (.record types none)

theorem Lists.wrap {n : Notation} {t : TypeSpec} (h : Lists n t) (k : Nat) :
    Lists (n.wrap k) (Grammar.wrap k t) := by
  induction k generalizing n t with
  | zero => exact h
  | succ k ih => exact ih (.sequence h)

end Notation

namespace Grammar

open Notation Reading

/-- The value of a part of a text has what the part lists; fields are put behind those that are there
    already. -/
def Listed : Part → Prop
  | .type n => ∀ t, n.value = .ok t → n.Lists t
  | .base n => ∀ t, n.value = .ok t → n.Lists t
  | .fields fs => ∀ f f', fieldsValue f fs = .ok f' → ∃ types,
      f'.entries = f.entries ++ types ∧ types.map Prod.fst = (ownFields fs).map Prod.fst ∧
        ∀ e ∈ (ownFields fs).zip types, Lists e.1.2 e.2.2

/-- A field in front of others. -/
theorem listed_cons {name : String} {n : Notation} {fs : List (String × Notation)}
    (hname : IsName name.toList) (hn : Listed (.type n)) (hfs : Listed (.fields fs)) :
    Listed (.fields ((name, n) :: fs)) := by
  intro f f' hvalue
  obtain ⟨hnew, t, g, ht, hstore, hg⟩ := fieldsValue_cons_eq_ok hvalue
  obtain ⟨types, hentries, hnames, hlists⟩ := hfs g f' hg
  rcases Stores.store_cases hstore with ⟨hancestor, hsame⟩ | ⟨hproper, hinsert⟩
  · have hown : ownFields ((name, n) :: fs) = ownFields fs :=
      List.filter_cons_of_neg (by simp [hancestor])
    rw [hown]
    exact ⟨types, by rw [hentries, hsame], hnames, hlists⟩
  · have hown : ownFields ((name, n) :: fs) = (name, n) :: ownFields fs :=
      List.filter_cons_of_pos (by simp [hproper])
    rw [hown]
    refine ⟨(name, t) :: types, ?_, ?_, ?_⟩
    · rw [hentries, hinsert, Entries.insert_of_isName hname hnew, List.append_assoc]
      rfl
    · rw [List.map_cons, List.map_cons, hnames]
    · rw [List.zip_cons_cons, List.forall_mem_cons]
      exact ⟨hn t ht, hlists⟩

/-- **The value of a part has what the part lists.** -/
theorem listed_of_spells {p : Part} {cs rest : List Char} (h : Spells p cs rest) : Listed p := by
  have hnone : Listed (.fields []) := fun f f' hvalue => by
    rw [fieldsValue] at hvalue
    cases hvalue
    exact ⟨[], (List.append_nil _).symm, rfl, fun _ he => by cases he⟩
  -- the fields of a record are put into an empty table
  have hrecord : ∀ fs, Listed (.fields fs) → Listed (.base (.record fs)) := fun fs hfs t ht => by
    rw [value] at ht
    obtain ⟨f, hf, ht'⟩ := Step.bind_eq_ok.1 ht
    cases ht'
    obtain ⟨types, hentries, hnames, hlists⟩ := hfs {} f hf
    rw [hentries, List.nil_append]
    exact .record hnames hlists
  induction h with
  | scalar _ =>
      intro t ht
      cases ht
      exact .scalar _
  | sequence _ _ _ _ ih =>
      intro t ht
      rw [value] at ht
      obtain ⟨e, he, ht'⟩ := Step.bind_eq_ok.1 ht
      cases ht'
      exact .sequence (ih e he)
  | point _ _ _ _ _ _ =>
      intro t ht
      cases ht
      exact .array _ rfl
  | @array k sizes _ _ _ _ _ _ _ _ _ _ _ _ _ _ _ =>
      intro t ht
      rw [value] at ht
      cases hds : toDimensions 0 sizes with
      | ok ds =>
          rw [hds] at ht
          cases ht
          exact .array _ hds
      | error e =>
          rw [hds] at ht
          cases ht
  | mapping _ _ _ _ _ _ ih =>
      intro t ht
      rw [value] at ht
      obtain ⟨v, hv, ht'⟩ := Step.bind_eq_ok.1 ht
      cases ht'
      exact .mapping _ (ih v hv)
  | handle _ _ _ _ _ =>
      intro t ht
      cases ht
      exact .handle _
  | bare _ _ _ => exact hrecord [] hnone
  | record _ _ _ _ ih => exact hrecord _ ih
  | field hfield _ _ _ ih => exact listed_cons hfield ih hnone
  | fields hfield _ _ _ _ _ ih ih' => exact listed_cons hfield ih ih'
  | type _ _ ih =>
      intro t ht
      rw [value_wrap] at ht
      cases hn : value _ with
      | error r =>
          rw [hn] at ht
          cases ht
      | ok u =>
          rw [hn] at ht
          cases ht
          exact (ih u hn).wrap _

end Grammar

/-- A text that spells a notation and is read as a type is read as the notation's value. -/
theorem Grammar.value_of_parse {n : Notation} {text : String} {t : TypeSpec}
    (hn : SpellsAll n text.toList) (h : TypeSpec.parse text = .ok t) : n.value = .ok t := by
  have hread := Reading.read_of_spellsAll hn
  cases hvalue : n.value with
  | ok u =>
      rw [hvalue] at hread
      rw [TypeSpec.parse_of_read hread] at h
      cases h
      rfl
  | error r =>
      rw [hvalue] at hread
      obtain ⟨place, hplace⟩ := hread
      rw [TypeSpec.parse, hplace] at h
      split at h
      · rename_i heq
        cases heq
      · cases h
      · cases h

/-- A content spells a type when it is a text that is read as the type; the text spells a notation,
    and what any notation of it lists is what the type has. -/
inductive SpellsType : Value → TypeSpec → Prop
  | text {text : String} {n : Notation} {t : TypeSpec} : TypeSpec.parse text = .ok t →
      Grammar.SpellsAll n text.toList → (∀ m, Grammar.SpellsAll m text.toList → m.Lists t) →
      SpellsType (.text text) t

theorem spellsType_of_parse {text : String} {t : TypeSpec} (h : TypeSpec.parse text = .ok t) :
    SpellsType (.text text) t := by
  obtain ⟨n, -, hn⟩ := TypeSpec.spelled_of_parse h
  refine .text h hn fun m hm => ?_
  have hvalue := Grammar.value_of_parse hm h
  obtain ⟨rest, hspells, -⟩ := hm
  exact Grammar.listed_of_spells hspells t hvalue

/-! ## 2. Declarations -/

namespace Graph

/-- A table declares a schema: the names that it lists, each with the type that its text spells. -/
def DeclaresSchema (g : Graph) (v : Value) (s : Schema) : Prop :=
  Entries.Declares SpellsType (g.listed v) s

/-- A content declares a production: the word for dropping a name, the text of a type, or a table
    with one entry, whose own entries declare the fields of a modification. -/
inductive DeclaresProduction (g : Graph) : Value → Production → Prop
  | drop : DeclaresProduction g (.text "drop") .drop
  | type {text : String} {t : TypeSpec} : text ≠ "drop" → SpellsType (.text text) t →
      DeclaresProduction g (.text text) (.type t)
  | modify {v w : Value} {fields : Produced} : g.listed v = [("modify", w)] →
      (∀ key, fields.has key = true ↔ key ≠ ancestorName ∧ (g.listed w).has key = true) →
      (∀ key u p, (g.listed w).find? key = some u → fields.find? key = some p →
        DeclaresProduction g u p) →
      DeclaresProduction g v (.modify fields)

/-- A table declares productions: the names that it lists, each with what its content declares. -/
def DeclaresProduced (g : Graph) (v : Value) (ps : Produced) : Prop :=
  Entries.Declares g.DeclaresProduction (g.listed v) ps

/-- A content declares what a contract has in a slot. -/
def DeclaresSlot (g : Graph) (c : Contract) (v : Value) : Slot → Prop
  | .fitRequires => g.DeclaresSchema v c.fitRequires
  | .transformRequires => g.DeclaresSchema v c.transformRequires
  | .fitParameters => g.DeclaresSchema v c.fitParameters
  | .fittedState => g.DeclaresSchema v c.fittedState
  | .producedOrModified => g.DeclaresProduced v c.produced

/-- What a table lists under a name; nothing where it does not list it. -/
def entryOf (g : Graph) (v : Value) (name : String) : Value := ((g.listed v).find? name).getD .absent

/-- A value declares a stage: it has the stage's name, and in each slot the contract has what the
    value lists under the name of the slot. -/
def DeclaresStage (g : Graph) (v : Value) (l : String × Link) : Prop :=
  g.part v "name" = .ok (.text l.1) ∧
    ∃ c, l.2 = .stage c ∧ ∀ slot : Slot, g.DeclaresSlot c (g.entryOf v slot.name) slot

/-- A value declares a chain: its stages are those of a list, in order, and the chain's input is what
    it has under the name of the input. -/
structure DeclaresChain (g : Graph) (v : Value) (compiled : Compiled) : Prop where
  stages : ∃ w items, g.part v "stages" = .ok w ∧ g.items? w = some items ∧
    List.Forall₂ g.DeclaresStage items compiled.chain.links
  input : ∃ w, g.part v "input" = .ok w ∧ g.DeclaresSchema w compiled.input

/-- Where a declaration has its stages: in itself if it has a list of them, else in what it has under
    the name of the chain. -/
def Unwraps (g : Graph) (v decl : Value) : Prop :=
  ∃ w, g.part v "stages" = .ok w ∧
    if g.isList w = true then decl = v else g.part v "chain" = .ok decl

end Graph

/-! ## 3. Tables -/

namespace Graph

variable {g : Graph}

/-- A node that is plain is an object of the graph, or there is none. -/
theorem plain_node {id : Nat} (h : g.isPlain (.node id) = true) :
    g.node? id = none ∨ ∃ lineage entries, g.node? id = some (.object lineage entries) := by
  cases hnode : g.node? id with
  | none => exact Or.inl rfl
  | some n =>
      cases n with
      | object lineage entries => exact Or.inr ⟨lineage, entries, rfl⟩
      | list items => simp [isPlain, behind?, node, hnode] at h
      | map entries => simp [isPlain, behind?, node, hnode] at h

/-- The names of a plain table that is no table of types are distinct. -/
theorem distinct_listed (hg : g.NamesDistinct) {v : Value} (hplain : g.isPlain v = true)
    (hv : ∀ fs ancestor, v ≠ .fieldTable fs ancestor) : Entries.Distinct (g.listed v) := by
  cases v with
  | node id =>
      rcases plain_node hplain with hnode | ⟨lineage, entries, hnode⟩
      · rw [listed_of_no_node hnode]
        exact Entries.distinct_nil
      · rw [listed_of_object hnode]
        exact hg id lineage entries hnode
  | fieldTable fs ancestor => exact absurd rfl (hv fs ancestor)
  | type t =>
      rw [Entries.Distinct, listed, TypeSpec.names_parts]
      cases t <;> simp [TypeSpec.partNames]
  | drop => exact List.nodup_singleton _
  | text _ => cases hplain
  | sizeList _ => cases hplain
  | buffer _ _ => cases hplain
  | _ => exact Entries.distinct_nil

/-- The names of a table that is gone through are distinct: a table of types is not accepted, unless
    it is empty. -/
theorem distinct_of_stores (hg : g.NamesDistinct) {α : Type} {partNames : α → List String}
    {R : Value → α → Prop} {f last : Filling α} {v : Value} (hplain : g.isPlain v = true)
    (h : Stores partNames R f (g.listed v) last) (hR : ∀ t a, ¬ R (.type t) a) :
    Entries.Distinct (g.listed v) := by
  by_cases hv : ∃ fs ancestor, v = .fieldTable fs ancestor
  · obtain ⟨fs, ancestor, rfl⟩ := hv
    cases fs with
    | nil => exact Entries.distinct_nil
    | cons e fs =>
        rw [listed, List.map_cons] at h
        cases h with
        | cons hfirst _ _ => exact absurd hfirst (hR _ _)
  · exact distinct_listed hg hplain fun fs ancestor e => hv ⟨fs, ancestor, e⟩

/-! ## 4. Schemas and productions -/

/-- **A schema that is compiled is declared.** -/
theorem declaresSchema (hg : g.NamesDistinct) {v : Value} {path : String} {s : Schema}
    (h : g.schemaTextOf v path = .ok s) : g.DeclaresSchema v s := by
  rcases schemaTextOf_eq_ok h with ⟨rfl, rfl⟩ | ⟨hplain, f, rfl, hf⟩
  · exact Entries.declares_nil _
  · have hstores := hf.mono (S := SpellsType) fun w t _ hw => by
      obtain ⟨_, hw⟩ := hw
      obtain ⟨text, rfl, hparse⟩ := typeTextOf_eq_ok hw
      exact spellsType_of_parse hparse
    refine hstores.declares (distinct_of_stores hg hplain hstores fun t a ha => ?_)
    cases ha

/-- What a content spells as a production, if what `sub` makes of a table is declared by it. -/
theorem declaresProduction {sub : Value → String → Except Fault Produced}
    (hsub : ∀ w path ps, sub w path = .ok ps → g.DeclaresProduced w ps) {v : Value} {path : String}
    {p : Production} (h : g.productionTextOf sub v path = .ok p) : g.DeclaresProduction v p := by
  rcases productionTextOf_eq_ok h with ⟨rfl, rfl⟩ | ⟨w, ps, -, hlisted, hps, -, rfl⟩ |
    ⟨text, t, rfl, hdrop, hparse, rfl⟩
  · exact .drop
  · have hdeclared := hsub w _ ps hps
    exact .modify hlisted hdeclared.keys hdeclared.contents
  · exact .type hdrop (spellsType_of_parse hparse)

/-- **The productions that are compiled are declared**, inside the tables of `visiting`. -/
theorem declaresProduced (hg : g.NamesDistinct) {visiting : List Nat} {v : Value} {path : String}
    {ps : Produced} (h : g.producedTextAt visiting v path = .ok ps) : g.DeclaresProduced v ps := by
  refine produced_induction (P := g.DeclaresProduced) (fun w hw => ?_)
    (fun w sub f hsub hplain hf => ?_) h
  · rw [DeclaresProduced, hw]
    exact Entries.declares_nil _
  · have hstores := hf.mono (S := g.DeclaresProduction) fun w p _ hp => by
      obtain ⟨_, hp⟩ := hp
      exact declaresProduction hsub hp
    refine hstores.declares (distinct_of_stores hg hplain hstores fun t p hp => ?_)
    cases hp with
    | modify hlisted _ _ => simp [listed, TypeSpec.parts] at hlisted

/-! ## 5. Stages -/

/-- A slot has what is declared for it, and the other slots have what they had. -/
theorem declaresSlot_setSlot (hg : g.NamesDistinct) {path : String} {c c' : Contract} {v : Value}
    {slot : Slot} (h : g.setSlot path c v slot = .ok c') :
    g.DeclaresSlot c' v slot ∧
      ∀ other w, other ≠ slot → g.DeclaresSlot c w other → g.DeclaresSlot c' w other := by
  cases slot with
  | producedOrModified =>
      obtain ⟨ps, hps, hc⟩ := Step.bind_eq_ok.1 h
      cases hc
      refine ⟨declaresProduced hg hps, fun other w hne hw => ?_⟩
      cases other with
      | producedOrModified => exact absurd rfl hne
      | _ => exact hw
  | _ =>
      obtain ⟨s, hs, hc⟩ := Step.bind_eq_ok.1 h
      cases hc
      refine ⟨declaresSchema hg hs, fun other w hne hw => ?_⟩
      cases other <;> first | exact absurd rfl hne | exact hw

theorem name_of_ofName? {key : String} {slot : Slot} (h : Slot.ofName? key = some slot) :
    slot.name = key := by
  have hfound := List.find?_some h
  simpa using hfound

/-- **The slots of a stage have what is declared for them.** -/
theorem declaresSlot_stageSlots (hg : g.NamesDistinct) {path : String} : ∀ {es : Entries Value}
    {c c' : Contract}, g.stageSlots path c es = .ok c' → es.Distinct → ∀ slot : Slot,
      match es.find? slot.name with
      | some v => g.DeclaresSlot c' v slot
      | none => ∀ v, g.DeclaresSlot c v slot → g.DeclaresSlot c' v slot
  | [], c, c', h, _, slot => by
      cases h
      exact fun v hv => hv
  | (key, v) :: es, c, c', h, hd, slot => by
      obtain ⟨hnew, hrest⟩ := Entries.distinct_cons_iff.1 hd
      rw [stageSlots_cons] at h
      cases hslot : Slot.ofName? key with
      | none =>
          rw [hslot] at h
          cases h
      | some named =>
          rw [hslot] at h
          obtain ⟨c₁, hc₁, hmore⟩ := Step.bind_eq_ok.1 h
          obtain ⟨hset, hothers⟩ := declaresSlot_setSlot hg hc₁
          have hlater := declaresSlot_stageSlots hg hmore hrest slot
          obtain rfl := name_of_ofName? hslot
          rw [Entries.find?_cons]
          by_cases hsame : named = slot
          · subst hsame
            rw [hnew] at hlater
            rw [if_pos rfl]
            exact hlater v hset
          · have hne : named.name ≠ slot.name := fun e => by
              have hnamed := Slot.ofName?_name named
              rw [e, Slot.ofName?_name] at hnamed
              exact hsame (Option.some.inj hnamed).symm
            rw [if_neg hne]
            cases hfound : Entries.find? es slot.name with
            | some w =>
                rw [hfound] at hlater
                exact hlater
            | none =>
                rw [hfound] at hlater
                exact fun w hw => hlater w (hothers slot w (Ne.symm hsame) hw)

theorem name_ne_of_slot (slot : Slot) : slot.name ≠ "name" := by
  cases slot <;> decide

/-- Where nothing is declared for a slot it is empty. -/
theorem declaresSlot_absent (slot : Slot) : g.DeclaresSlot {} .absent slot := by
  cases slot <;> exact Entries.declares_nil _

/-- A stage is no table of types: its name is a text. -/
theorem ne_fieldTable_of_named {v : Value} {name : String} (hplain : g.isPlain v = true)
    (hname : g.part v "name" = .ok (.text name)) (fs : List (String × TypeSpec))
    (ancestor : Option TypeSpec) : v ≠ .fieldTable fs ancestor := by
  rintro rfl
  have hnamed : "name" ≠ ancestorName := by decide
  rcases part_plain hplain (fun f e => by cases e) hnamed with h | ⟨-, h⟩
  · rw [hname] at h
    have htext : valueAt (g.listed (.fieldTable fs ancestor)) "name" = .text name :=
      (Except.ok.inj h).symm
    unfold valueAt at htext
    cases hfound : Entries.find? (g.listed (.fieldTable fs ancestor)) "name" with
    | none =>
        rw [hfound] at htext
        cases htext
    | some w =>
        rw [hfound] at htext
        obtain ⟨e, -, he⟩ := List.mem_map.1 (Entries.mem_of_find? hfound)
        obtain rfl : .type e.2 = w := (Prod.mk.inj he).2
        cases htext
  · rw [hname] at h
    cases h

/-- **A stage that is compiled is declared.** -/
theorem declaresStage (hg : g.NamesDistinct) {v : Value} {path : String} {l : Value × Link}
    (h : g.stageOf v path = .ok l) : ∃ name, l.1 = .text name ∧ g.DeclaresStage v (name, l.2) := by
  obtain ⟨hplain, name, c, at', rfl, hname, hc, -⟩ := stageOf_eq_ok h
  have hd := distinct_listed hg hplain (ne_fieldTable_of_named hplain hname)
  refine ⟨name, rfl, hname, c, rfl, fun slot => ?_⟩
  have hslot := declaresSlot_stageSlots hg hc (hd.erase "name") slot
  rw [Entries.find?_erase, if_neg (name_ne_of_slot slot)] at hslot
  unfold entryOf
  cases hfound : Entries.find? (g.listed v) slot.name with
  | some u =>
      rw [hfound] at hslot
      exact hslot
  | none =>
      rw [hfound] at hslot
      exact hslot .absent (declaresSlot_absent slot)

/-! ## 6. Chains -/

theorem unwraps_of_unwrapped {v decl : Value} (h : g.unwrapped v = .ok decl) : g.Unwraps v decl := by
  unfold unwrapped at h
  split at h
  · cases h
  · obtain ⟨w, hw, hmore⟩ := Step.bind_eq_ok.1 h
    refine ⟨w, hw, ?_⟩
    split at hmore
    · rename_i hlist
      cases hmore
      rw [if_pos hlist]
    · rename_i hlist
      obtain ⟨inner, hinner, hplain⟩ := Step.bind_eq_ok.1 hmore
      split at hplain
      · cases hplain
        rw [if_neg hlist]
        exact hinner
      · cases hplain

/-- **A chain that is compiled has exactly what is declared**: the stages in order, in each slot the
names that are listed for it with what their contents spell, at every depth, and the names of the
input; only what stands under the ancestor's name is lost. -/
theorem chainOf_declares (hg : g.NamesDistinct) {v : Value} {compiled : Compiled}
    (h : g.chainOf v = .ok compiled) : ∃ decl, g.Unwraps v decl ∧ g.DeclaresChain decl compiled := by
  obtain ⟨decl, w, items, ls, u, hdecl, hw, hitems, hls, hc, hu, hinput⟩ := chainOf_eq_ok h
  refine ⟨decl, unwraps_of_unwrapped hdecl, ⟨w, items, hw, hitems, ?_⟩, u, hu,
    declaresSchema hg hinput⟩
  have hall := stagesOf_eq_ok hls
  rw [eq_map_of_ofLinks hc, List.forall₂_map_right_iff] at hall
  refine hall.imp fun stage l hstage => ?_
  obtain ⟨path, hl⟩ := hstage
  obtain ⟨name, hname, hdeclares⟩ := declaresStage hg hl
  cases hname
  exact hdeclares

/-- Whether no name stands twice in a container. -/
def distinctNode : Node → Bool
  | .object _ entries => decide (Entries.Distinct entries)
  | _ => true

theorem namesDistinct_of_nodes (h : g.nodes.toList.all distinctNode = true) :
    g.NamesDistinct := by
  intro id lineage entries hnode
  have hmem : Node.object lineage entries ∈ g.nodes.toList :=
    Array.mem_toList_iff.2 (Array.mem_of_getElem? hnode)
  exact of_decide_eq_true (List.all_eq_true.1 h _ hmem)

/-- A declaration inside a table, with a modification and records. -/
def declaredSample : Graph where
  nodes := #[
    .object .plain [("u", .text " record\x7b v: float, w: integer[]\x7d"), ("n", .text "drop")],
    .object .plain [("modify", .node 0)],
    .object .plain [("x", .node 1), ("y", .text "opaque<Net>")],
    .object .plain [("x", .text "record\x7bn: float\x7d")],
    .object .plain [("name", .text "a"), ("transformRequires", .node 3),
      ("producedOrModified", .node 2)],
    .list [.node 4],
    .object .plain [("stages", .node 5), ("input", .node 3)],
    .object .plain [("chain", .node 6)]]

theorem chainOf_declares_nested :
    ∃ compiled, declaredSample.chainOf (.node 7) = .ok compiled ∧
      ∃ decl, declaredSample.Unwraps (.node 7) decl ∧ declaredSample.DeclaresChain decl compiled := by
  have hg : declaredSample.NamesDistinct := namesDistinct_of_nodes (by decide)
  have hreturns : (declaredSample.chainOf (.node 7)).isOk = true := by decide +kernel
  cases hcompiled : declaredSample.chainOf (.node 7) with
  | error e =>
      rw [hcompiled] at hreturns
      cases hreturns
  | ok compiled => exact ⟨compiled, rfl, chainOf_declares hg hcompiled⟩

/-- A declaration with a stage that demands two names, one of them that of the ancestor. -/
def ancestralSample : Graph where
  nodes := #[
    .object .plain [("__proto__", .text "float"), ("x", .text "float")],
    .object .plain [("name", .text "a"), ("transformRequires", .node 0)],
    .list [.node 1],
    .object .plain [("stages", .node 2)]]

/-- What is declared under the ancestor's name is accepted, but it is not in the chain. -/
theorem not_chainOf_declares :
    ¬ ∀ (g : Graph) (v : Value) (compiled : Compiled), g.NamesDistinct →
      g.chainOf v = .ok compiled → ∀ w items, g.part v "stages" = .ok w → g.items? w = some items →
        List.Forall₂ (fun stage l => ∃ c, l.2 = .stage c ∧
          ∀ key, c.transformRequires.has key = true ↔
            (g.listed (g.entryOf stage "transformRequires")).has key = true)
          items compiled.chain.links := by
  intro h
  have hg : ancestralSample.NamesDistinct := namesDistinct_of_nodes (by decide)
  have hcompiled : ancestralSample.chainOf (.node 3) =
      .ok ⟨⟨[("a", .stage { transformRequires := [("x", .scalar .float)] })]⟩, []⟩ := by rfl
  have hall := h _ _ _ hg hcompiled (.node 2) [.node 1] rfl rfl
  cases hall with
  | cons hstage _ =>
      obtain ⟨c, hc, hkeys⟩ := hstage
      cases hc
      have hancestor := (hkeys ancestorName).2 (by rfl)
      exact absurd hancestor (by decide)

end Graph

end SchemaFlow
