import Mathlib.Data.List.Forall2
import SchemaFlow.Proofs.Declaration.Stores

/-!
# What a compilation consists of

When a declaration is compiled each of its parts is, and what is compiled is put together of what the
parts give. There is one lemma for each step of the compiler, which says everything that the step has
seen to; whatever is said of a compiled chain follows from these.

* `Graph.produced_induction`: the productions of a table are filled from its entries, at every depth.
* `Graph.stageOf_eq_ok`: a stage has a name, slots, and no empty names in them.
* `Graph.chainOf_eq_ok`: a chain is built of the stages of a list.
-/

namespace SchemaFlow

/-- No name in a slot is empty. -/
structure Contract.Keyed (c : Contract) : Prop where
  fitRequires : c.fitRequires.has "" = false
  transformRequires : c.transformRequires.has "" = false
  fitParameters : c.fitParameters.has "" = false
  fittedState : c.fittedState.has "" = false
  produced : c.produced.has "" = false

namespace Graph

variable {g : Graph}

/-! ## 1. Schemas -/

theorem partsOf_eq_ok {v : Value} {es : Entries Value} (h : g.partsOf v = .ok es) :
    es = g.listed v := by
  unfold partsOf at h
  split at h
  · cases h
  · cases h
  · cases h
  · cases h
  · exact (Except.ok.inj h).symm

theorem typeTextOf_eq_ok {v : Value} {path : String} {t : TypeSpec}
    (h : typeTextOf v path = .ok t) : ∃ text, v = .text text ∧ TypeSpec.parse text = .ok t := by
  unfold typeTextOf at h
  split at h
  · rename_i text
    split at h
    · rename_i u hparse
      cases h
      exact ⟨text, rfl, hparse⟩
    · cases h
    · cases h
  · cases h

theorem schemaTextOf_eq_ok {v : Value} {path : String} {s : Schema}
    (h : g.schemaTextOf v path = .ok s) : v = .absent ∧ s = [] ∨
      g.isPlain v = true ∧ ∃ f, s = f.entries ∧
        Stores TypeSpec.partNames (fun w t => ∃ at', typeTextOf w at' = .ok t) {} (g.listed v) f := by
  unfold schemaTextOf at h
  split at h
  · cases h
    exact Or.inl ⟨rfl, rfl⟩
  · split at h
    · rename_i hplain
      obtain ⟨es, hes, hfill⟩ := Step.bind_eq_ok.1 h
      obtain ⟨f, hf, hs⟩ := Step.bind_eq_ok.1 hfill
      obtain rfl := partsOf_eq_ok hes
      rw [fillTypeTexts_eq] at hf
      cases hs
      exact Or.inr ⟨hplain, f, rfl, stores_of_fillTexts hf⟩
    · cases h

/-! ## 2. Productions -/

theorem namedFields_eq_ok {ps ps' : Produced} (h : namedFields ps = .ok ps') :
    ps = ps' ∧ ps.has "" = false := by
  unfold namedFields at h
  split at h
  · cases h
  · rename_i hempty
    cases h
    exact ⟨rfl, by simpa using hempty⟩

/-- A table with one entry, and one under a name. -/
theorem eq_single_of_has {es : Entries Value} {name : String}
    (h : (es.has name && decide (es.length = 1)) = true) : ∃ w, es = [(name, w)] := by
  rw [Bool.and_eq_true, decide_eq_true_eq] at h
  obtain ⟨hhas, hlength⟩ := h
  obtain ⟨⟨key, w⟩, rfl⟩ := List.length_eq_one_iff.1 hlength
  obtain ⟨v, hv⟩ := Entries.has_eq_true_iff.1 hhas
  rw [Entries.find?_cons] at hv
  split at hv
  · rename_i hkey
    obtain rfl : key = name := hkey
    exact ⟨w, rfl⟩
  · cases hv

/-- What a content spells as a production: the word for dropping a name, a modification whose fields
    `sub` compiles, or a type. -/
theorem productionTextOf_eq_ok {sub : Value → String → Except Fault Produced} {v : Value}
    {path : String} {p : Production} (h : g.productionTextOf sub v path = .ok p) :
    v = .text "drop" ∧ p = .drop ∨
      (∃ w ps, g.isPlain v = true ∧ g.listed v = [("modify", w)] ∧
        sub w (path ++ ".modify") = .ok ps ∧ ps.has "" = false ∧ p = .modify ps) ∨
      ∃ text t, v = .text text ∧ text ≠ "drop" ∧ TypeSpec.parse text = .ok t ∧ p = .type t := by
  unfold productionTextOf at h
  split at h
  · cases h
    exact Or.inl ⟨rfl, rfl⟩
  · rename_i hdrop
    split at h
    · rename_i hplain
      obtain ⟨es, hes, htable⟩ := Step.bind_eq_ok.1 h
      obtain rfl := partsOf_eq_ok hes
      split at htable
      · rename_i hmodify
        obtain ⟨ps, hps, hnamed⟩ := Step.bind_eq_ok.1 htable
        obtain ⟨ps', hps', hmade⟩ := Step.bind_eq_ok.1 hnamed
        cases hmade
        obtain ⟨rfl, hempty⟩ := namedFields_eq_ok hps'
        obtain ⟨w, hw⟩ := eq_single_of_has hmodify
        rw [hw] at hps
        exact Or.inr (Or.inl ⟨w, ps, hplain, hw, hps, hempty, rfl⟩)
      · cases htable
    · obtain ⟨t, ht, hmade⟩ := Step.bind_eq_ok.1 h
      cases hmade
      obtain ⟨text, rfl, hparse⟩ := typeTextOf_eq_ok ht
      exact Or.inr (Or.inr ⟨text, t, rfl, fun e => hdrop (e ▸ rfl), hparse, rfl⟩)

/-- **Induction over the productions of a table**: they are none, or they are filled from its
    entries, with the hypothesis for whatever compiles the fields of a modification. -/
theorem produced_induction {P : Value → Produced → Prop}
    (empty : ∀ v, g.listed v = [] → P v [])
    (fill : ∀ (v : Value) (sub : Value → String → Except Fault Produced) (f : Filling Production),
      (∀ w at' ps, sub w at' = .ok ps → P w ps) → g.isPlain v = true →
        Stores Production.partNames (fun w p => ∃ at', g.productionTextOf sub w at' = .ok p) {}
          (g.listed v) f → P v f.entries)
    {visiting : List Nat} {v : Value} {path : String} {ps : Produced}
    (h : g.producedTextAt visiting v path = .ok ps) : P v ps := by
  -- the walk goes into ever fewer containers
  induction hn : g.unvisited visiting using Nat.strongRecOn
    generalizing visiting v path ps with
  | _ n ih =>
      unfold producedTextAt at h
      split at h
      · cases h
        exact empty _ rfl
      · rename_i id
        split at h
        · cases h
        · rename_i hplain
          split at h
          · cases h
          · rename_i hnew
            split at h
            · rename_i hsize
              obtain ⟨es, hes, hfill⟩ := Step.bind_eq_ok.1 h
              obtain ⟨f, hf, hps⟩ := Step.bind_eq_ok.1 hfill
              obtain rfl := partsOf_eq_ok hes
              rw [fillProducedTexts_eq] at hf
              cases hps
              refine fill _ _ f (fun w at' ps hw => ?_) (by simpa using hplain)
                (stores_of_fillTexts hf)
              exact ih _ (hn ▸ unvisited_cons_lt hsize hnew) hw rfl
            · rename_i hsize
              cases h
              refine empty _ ?_
              cases hnode : g.node? id with
              | none => simp [listed, node, hnode, default]
              | some n => exact absurd (lt_size_of_node? hnode) hsize
      · split at h
        · rename_i hplain
          obtain ⟨es, hes, hfill⟩ := Step.bind_eq_ok.1 h
          obtain ⟨f, hf, hps⟩ := Step.bind_eq_ok.1 hfill
          obtain rfl := partsOf_eq_ok hes
          rw [fillProducedTexts_eq] at hf
          cases hps
          exact fill _ _ f (fun w at' ps hw => by cases hw) hplain (stores_of_fillTexts hf)
        · cases h

/-! ## 3. Stages -/

/-- What stands in a slot is compiled into it. -/
def setSlot (g : Graph) (path : String) (c : Contract) (v : Value) : Slot → Except Fault Contract
  | .fitRequires => do .ok { c with fitRequires := ← g.schemaTextOf v path }
  | .transformRequires => do .ok { c with transformRequires := ← g.schemaTextOf v path }
  | .fitParameters => do .ok { c with fitParameters := ← g.schemaTextOf v path }
  | .fittedState => do .ok { c with fittedState := ← g.schemaTextOf v path }
  | .producedOrModified => do .ok { c with produced := ← g.producedTextOf v path }

theorem stageSlots_cons (path : String) (c : Contract) (key : String) (v : Value)
    (rest : Entries Value) : g.stageSlots path c ((key, v) :: rest) =
      match Slot.ofName? key with
      | some slot => do
        let c ← g.setSlot (path ++ "." ++ key) c v slot
        g.stageSlots path c rest
      | none => refuse path (.unknownStageField key) := by
  rw [stageSlots]
  cases Slot.ofName? key with
  | none => rfl
  | some slot =>
      cases slot with
      | producedOrModified =>
          simp only [setSlot]
          cases g.producedTextOf v (path ++ "." ++ key) <;> rfl
      | _ =>
          simp only [setSlot]
          cases g.schemaTextOf v (path ++ "." ++ key) <;> rfl

theorem checkKeys_eq_ok {α : Type} {name : String} {slot : Slot} {es : Entries α} {u : Unit}
    (h : checkKeys name slot es = .ok u) : es.has "" = false := by
  unfold checkKeys at h
  split at h
  · cases h
  · rename_i hempty
    simpa using hempty

theorem checkContract_eq_ok {name : String} {c c' : Contract}
    (h : checkContract name c = .ok c') : c = c' ∧ c.Keyed := by
  unfold checkContract at h
  obtain ⟨_, hfit, h₁⟩ := Step.bind_eq_ok.1 h
  obtain ⟨_, htransform, h₂⟩ := Step.bind_eq_ok.1 h₁
  obtain ⟨_, hparameters, h₃⟩ := Step.bind_eq_ok.1 h₂
  obtain ⟨_, hstate, h₄⟩ := Step.bind_eq_ok.1 h₃
  obtain ⟨_, hproduced, h₅⟩ := Step.bind_eq_ok.1 h₄
  exact ⟨Except.ok.inj h₅, checkKeys_eq_ok hfit, checkKeys_eq_ok htransform,
    checkKeys_eq_ok hparameters, checkKeys_eq_ok hstate, checkKeys_eq_ok hproduced⟩

/-- A stage that is compiled has a name, and its slots are those of its other entries. -/
theorem stageOf_eq_ok {v : Value} {path : String} {l : Value × Link}
    (h : g.stageOf v path = .ok l) : g.isPlain v = true ∧ ∃ name c at',
      l = (.text name, .stage c) ∧ g.part v "name" = .ok (.text name) ∧
        g.stageSlots at' {} ((g.listed v).erase "name") = .ok c ∧ c.Keyed := by
  unfold stageOf at h
  split at h
  · cases h
  · rename_i hplain
    obtain ⟨w, hw, hnamed⟩ := Step.bind_eq_ok.1 h
    split at hnamed
    · rename_i name
      obtain ⟨es, hes, hslots⟩ := Step.bind_eq_ok.1 hnamed
      obtain ⟨c, hc, hcheck⟩ := Step.bind_eq_ok.1 hslots
      obtain ⟨c', hc', hl⟩ := Step.bind_eq_ok.1 hcheck
      obtain rfl := partsOf_eq_ok hes
      obtain ⟨rfl, hkeyed⟩ := checkContract_eq_ok hc'
      cases hl
      exact ⟨by simpa using hplain, name, c, _, rfl, hw, hc, hkeyed⟩
    · cases hnamed

/-- What stands at a place that is no hole is compiled as a stage. -/
theorem stagesOf_cons {v : Value} (hv : v ≠ .hole) (items : List Value) (index : Nat) :
    g.stagesOf index (v :: items) = (do
      let l ← g.stageOf v s!"stages[{index}]"
      let ls ← g.stagesOf (index + 1) items
      .ok (some l :: ls)) := by
  rw [stagesOf]
  exact hv

/-- The stages of a list are compiled one by one, if there is no hole among the links. -/
theorem stagesOf_eq_ok : ∀ {items : List Value} {index : Nat} {ls : List (Value × Link)},
    g.stagesOf index items = .ok (ls.map some) →
      List.Forall₂ (fun v l => ∃ path, g.stageOf v path = .ok l) items ls
  | [], _, _, h => by
      obtain rfl := List.map_eq_nil_iff.1 (Except.ok.inj h).symm
      exact .nil
  | v :: items, index, ls, h => by
      by_cases hv : v = .hole
      · subst hv
        obtain ⟨more, -, hall⟩ := Step.bind_eq_ok.1 h
        cases ls with
        | nil => cases hall
        | cons l ls => cases hall
      · rw [stagesOf_cons hv] at h
        obtain ⟨l, hl, hmore⟩ := Step.bind_eq_ok.1 h
        obtain ⟨more, hls, hall⟩ := Step.bind_eq_ok.1 hmore
        cases ls with
        | nil => cases hall
        | cons l' ls =>
            obtain ⟨hl', rfl⟩ := List.cons.inj (Except.ok.inj hall)
            obtain rfl := Option.some.inj hl'
            exact .cons ⟨_, hl⟩ (stagesOf_eq_ok hls)

/-! ## 4. Chains -/

/-- The links of a chain are those that it is built of, each under the text of its name. -/
theorem eq_map_of_checkNames : ∀ {given : List (Value × Link)} {index : Nat} {seen : List String}
    {links : List (String × Link)}, Chain.checkNames index seen given = .ok links →
    given = links.map fun l => (.text l.1, l.2)
  | [], _, _, _, h => by
      cases h
      rfl
  | (v, l) :: given, index, seen, links, h => by
      rw [Chain.checkNames] at h
      obtain ⟨name, hname, hmore⟩ := Step.bind_eq_ok.1 h
      obtain ⟨rest, hrest, hall⟩ := Step.bind_eq_ok.1 hmore
      cases hall
      have hv : v = .text name := by
        unfold Chain.checkName at hname
        split at hname
        · split at hname
          · cases hname
          · split at hname
            · cases hname
            · split at hname
              · cases hname
              · cases hname
                rfl
        · cases hname
      rw [hv, eq_map_of_checkNames hrest, List.map_cons]

theorem eq_map_of_ofLinks {given : List (Value × Link)} {c : Chain}
    (h : Chain.ofLinks given = .ok c) : given = c.links.map fun l => (.text l.1, l.2) := by
  unfold Chain.ofLinks at h
  obtain ⟨links, hlinks, hmore⟩ := Step.bind_eq_ok.1 h
  split at hmore
  · cases hmore
  · obtain ⟨-, -, hmade⟩ := Step.bind_eq_ok.1 hmore
    cases hmade
    exact eq_map_of_checkNames hlinks

/-- Where there is no hole all links stand before the first one. -/
theorem eq_map_of_beforeHole : ∀ {places : List (Option (Value × Link))} {ls : List (Value × Link)},
    Chain.beforeHole places = (ls, false) → places = ls.map some
  | [], _, h => by
      cases h
      rfl
  | none :: _, _, h => by cases h
  | some l :: places, _, h => by
      rw [Chain.beforeHole] at h
      cases hrest : Chain.beforeHole places with
      | mk ls holed =>
          rw [hrest] at h
          cases h
          rw [List.map_cons, ← eq_map_of_beforeHole hrest]

/-- A chain is built of links at places where none of these is a hole. -/
theorem ofPlaces_eq_ok {places : List (Option (Value × Link))} {c : Chain}
    (h : Chain.ofPlaces places = .ok c) : ∃ ls, places = ls.map some ∧ Chain.ofLinks ls = .ok c := by
  unfold Chain.ofPlaces at h
  split at h
  · rename_i ls hplaces
    exact ⟨ls, eq_map_of_beforeHole hplaces, h⟩
  · obtain ⟨-, -, hfault⟩ := Step.bind_eq_ok.1 h
    cases hfault

/-- A chain that is compiled is built of the stages of a list, and has the input's types. -/
theorem chainOf_eq_ok {v : Value} {compiled : Compiled} (h : g.chainOf v = .ok compiled) :
    ∃ decl w items ls u, g.unwrapped v = .ok decl ∧ g.part decl "stages" = .ok w ∧
      g.items? w = some items ∧ g.stagesOf 0 items = .ok (ls.map some) ∧
      Chain.ofLinks ls = .ok compiled.chain ∧ g.part decl "input" = .ok u ∧
      g.schemaTextOf u "input" = .ok compiled.input := by
  unfold chainOf at h
  obtain ⟨decl, hdecl, h₁⟩ := Step.bind_eq_ok.1 h
  obtain ⟨w, hw, h₂⟩ := Step.bind_eq_ok.1 h₁
  split at h₂
  · cases h₂
  · rename_i items hitems
    obtain ⟨places, hplaces, h₃⟩ := Step.bind_eq_ok.1 h₂
    obtain ⟨c, hc, h₄⟩ := Step.bind_eq_ok.1 h₃
    obtain ⟨ls, rfl, hls⟩ := ofPlaces_eq_ok hc
    obtain ⟨u, hu, h₅⟩ := Step.bind_eq_ok.1 h₄
    obtain ⟨input, hinput, hmade⟩ := Step.bind_eq_ok.1 h₅
    cases hmade
    exact ⟨decl, w, items, ls, u, hdecl, hw, hitems, hplaces, hls, hu, hinput⟩

end Graph

end SchemaFlow
