import SchemaFlow.Observation
import SchemaFlow.Proofs.Steps
import SchemaFlow.Proofs.TypeSpec.Compatibility

/-!
# Observing under a weaker type

A value is observed under the type that is demanded of it, and the demand steers what is seen: of a
list the first element that does not fit is shown, a plain object is a record or a mapping. Still a
value that meets a type when it is observed under it meets every weaker type when it is observed
under that (`observeAt_weaken`).

An observation makes one of four things of a value, whatever it is told to expect (`View`): a type
that the hint does not change, or a list, a table or a map of parts that are observed in turn.
-/

namespace SchemaFlow

/-! ## 1. One step of an observation -/

/-- A value that an observation looks into. -/
def Value.isContainer : Value → Bool
  | .fieldTable _ _ | .drop | .sizeList _ | .founder _ | .node _ => true
  | _ => false

theorem observeAt_leaf (g : Graph) (keyed visiting : List Nat) (hint : Hint) {v : Value}
    (hv : v.isContainer = false) : g.observeAt keyed visiting hint v = leafType v := by
  cases v with
  | fieldTable _ _ => cases hv
  | drop => cases hv
  | sizeList _ => cases hv
  | founder _ => cases hv
  | node _ => cases hv
  | _ => simp [Graph.observeAt]

/-- What is observed of a node that is not being visited: `obs` observes what it holds, `keyObs` the
    keys of a map. -/
def Graph.nodeType (g : Graph) (obs : Hint → Value → Except Fault TypeSpec)
    (keyObs : Value → Except Fault TypeSpec) (hint : Hint) (id : Nat) : Except Fault TypeSpec :=
  match g.node? id with
  | none => tableType (fun _ w => leafType w) hint []
  | some (.list items) => listType obs hint items
  | some (.map entries) => mapType obs keyObs hint entries
  | some (.object lineage entries) =>
    match g.description? (g.describing lineage entries) with
    | some (dtype, shape) => describedType (g.label (.node id)) dtype shape
    | none =>
      match lineage with
      | .ofClass _ | .sealed (some _) => Graph.handle (g.label (.node id))
      | .plain | .bare | .sealed none => tableType obs hint entries

/-- What is observed of the founder of a family other than the lists. -/
def Graph.founderType (g : Graph) (hint : Hint) (f : Family) : Except Fault TypeSpec := do
  let entries ← g.partsOf (.founder f)
  if g.isPlain (.founder f) then tableType (fun _ w => leafType w) hint entries
  else leafType (.founder f)

theorem observeAt_founder (g : Graph) (keyed visiting : List Nat) (hint : Hint) {f : Family}
    (hf : f ≠ .list) : g.observeAt keyed visiting hint (.founder f) = g.founderType hint f := by
  rw [Graph.observeAt]
  · rfl
  · intro h
    exact hf h

theorem observeAt_visited (g : Graph) (keyed : List Nat) {visiting : List Nat} (hint : Hint)
    {id : Nat} (h : id ∈ visiting) :
    g.observeAt keyed visiting hint (.node id) = Graph.handle (g.label (.node id)) := by
  rw [Graph.observeAt, dif_pos h]

/-- A map inside one of its own keys cannot be observed. -/
theorem observeAt_endless (g : Graph) {keyed visiting : List Nat} (hint : Hint) {id : Nat}
    (hnew : id ∉ visiting) (hkey : id ∈ keyed) {entries : List (Value × Value)}
    (hnode : g.node? id = some (.map entries)) :
    g.observeAt keyed visiting hint (.node id) = .error .endless := by
  rw [Graph.observeAt, dif_neg hnew]
  split
  · rename_i h
    rw [hnode] at h
    cases h
  · rename_i h
    rw [hnode] at h
    cases h
  · rename_i h
    rw [dif_pos hkey]
  · rename_i h
    rw [hnode] at h
    cases h

theorem observeAt_node (g : Graph) {keyed visiting : List Nat} (hint : Hint) {id : Nat}
    (hnew : id ∉ visiting)
    (hkey : ∀ entries, g.node? id = some (.map entries) → id ∉ keyed) :
    g.observeAt keyed visiting hint (.node id) =
      g.nodeType (fun hint w => g.observeAt keyed (id :: visiting) hint w)
        (fun w => g.observeAt (id :: keyed) [] .none w) hint id := by
  rw [Graph.observeAt, dif_neg hnew]
  unfold Graph.nodeType
  split
  · rename_i h
    simp only [h]
  · rename_i h
    simp only [h]
  · rename_i h
    rw [dif_neg (hkey _ h)]
    simp only [h]
  · rename_i lineage entries h
    simp only [h]
    cases g.description? (g.describing lineage entries) with
    | some described => rfl
    | none => rcases lineage with _ | _ | _ | (_ | _) <;> rfl

/-! ## 2. Views of a value -/

/-- The observation of parts: of parts that hold no others, or of parts inside a walk. -/
inductive Inner (g : Graph) : (Hint → Value → Except Fault TypeSpec) → Prop
  | leaf : Inner g fun _ w => leafType w
  | walk (keyed visiting : List Nat) : Inner g fun hint w => g.observeAt keyed visiting hint w

/-- What an observation makes of a value, by the hint that it is given. -/
inductive View (g : Graph) : (Hint → Except Fault TypeSpec) → Prop
  | fixed (r : Except Fault TypeSpec) : View g fun _ => r
  | list {obs : Hint → Value → Except Fault TypeSpec} (items : List Value) :
      Inner g obs → View g fun hint => listType obs hint items
  | table {obs : Hint → Value → Except Fault TypeSpec} (entries : Entries Value) :
      Inner g obs → View g fun hint => tableType obs hint entries
  | map {obs : Hint → Value → Except Fault TypeSpec} (keyObs : Value → Except Fault TypeSpec)
      (entries : List (Value × Value)) :
      Inner g obs → View g fun hint => mapType obs keyObs hint entries

theorem View.of_eq {g : Graph} {f f' : Hint → Except Fault TypeSpec} (hf : View g f')
    (h : ∀ hint, f hint = f' hint) : View g f := by
  obtain rfl : f = f' := funext h
  exact hf

theorem view_nodeType {g : Graph} {obs : Hint → Value → Except Fault TypeSpec}
    (hobs : Inner g obs) (keyObs : Value → Except Fault TypeSpec) (id : Nat) :
    View g fun hint => g.nodeType obs keyObs hint id := by
  unfold Graph.nodeType
  cases g.node? id with
  | none => exact .table [] .leaf
  | some n =>
      cases n with
      | list items => exact .list items hobs
      | map entries => exact .map keyObs entries hobs
      | object lineage entries =>
          dsimp only
          cases g.description? (g.describing lineage entries) with
          | some described => exact .fixed _
          | none =>
              cases lineage with
              | plain => exact .table entries hobs
              | bare => exact .table entries hobs
              | ofClass name => exact .fixed _
              | «sealed» ancestor =>
                  cases ancestor with
                  | none => exact .table entries hobs
                  | some a => exact .fixed _

theorem view_founderType (g : Graph) (f : Family) : View g fun hint => g.founderType hint f := by
  unfold Graph.founderType
  cases g.partsOf (.founder f) with
  | error e => exact .fixed (.error e)
  | ok entries =>
      cases g.isPlain (.founder f) with
      | true => exact .table entries .leaf
      | false => exact .fixed (leafType (.founder f))

/-- **Every observation is one of the views.** -/
theorem view_observeAt (g : Graph) (keyed visiting : List Nat) (v : Value) :
    View g fun hint => g.observeAt keyed visiting hint v := by
  cases v with
  | fieldTable fs ancestor =>
      cases ancestor with
      | none => exact (View.table _ .leaf).of_eq fun hint => by rw [Graph.observeAt]
      | some a => exact (View.fixed _).of_eq fun hint => by rw [Graph.observeAt]
  | drop => exact (View.table _ .leaf).of_eq fun hint => by rw [Graph.observeAt]
  | sizeList ds => exact (View.list _ .leaf).of_eq fun hint => by rw [Graph.observeAt]
  | founder f =>
      by_cases hf : f = .list
      · subst hf
        exact (View.list [] .leaf).of_eq fun hint => by rw [Graph.observeAt]
      · exact (view_founderType g f).of_eq fun hint => observeAt_founder g keyed visiting hint hf
  | node id =>
      by_cases hnew : id ∈ visiting
      · exact (View.fixed _).of_eq fun hint => observeAt_visited g keyed hint hnew
      · by_cases hkey : ∀ entries, g.node? id = some (.map entries) → id ∉ keyed
        · exact (view_nodeType (.walk keyed (id :: visiting)) _ id).of_eq fun hint =>
            observeAt_node g hint hnew hkey
        · obtain ⟨entries, hnode, hmem⟩ :
              ∃ entries, g.node? id = some (.map entries) ∧ id ∈ keyed := by
            simpa using hkey
          exact (View.fixed _).of_eq fun hint => observeAt_endless g hint hnew hmem hnode
  | _ => exact (View.fixed _).of_eq fun hint => observeAt_leaf g keyed visiting hint rfl

/-! ## 3. Elements -/

/-- What is shown of elements is compatible only when every element is. -/
theorem forall_of_firstMisfit {obs : Value → Except Fault TypeSpec} {e : TypeSpec} :
    ∀ {vs : List Value} {first : Option TypeSpec} {t : TypeSpec},
      firstMisfit obs e first vs = .ok t → e.isCompatible t = true →
      ∀ v ∈ vs, ∃ u, obs v = .ok u ∧ e.isCompatible u = true
  | [], _, _, _, _ => fun _ h => absurd h List.not_mem_nil
  | v :: vs, first, t, h, ht => by
      rw [firstMisfit] at h
      obtain ⟨u, hu, h⟩ := Step.bind_eq_ok.1 h
      split at h
      · rename_i hmisfit
        cases h
        rw [TypeSpec.isCompatible_iff] at ht
        rw [ht] at hmisfit
        cases hmisfit
      · rename_i hfits
        have hu' : e.isCompatible u = true := by
          rw [TypeSpec.isCompatible_iff]
          simpa using hfits
        exact List.forall_mem_cons.2 ⟨⟨u, hu, hu'⟩, forall_of_firstMisfit h ht⟩

/-- What is shown of compatible elements is compatible. -/
theorem firstMisfit_of_forall {obs : Value → Except Fault TypeSpec} {e : TypeSpec}
    (he : e.WellFormed) : ∀ {vs : List Value} {first : Option TypeSpec} {t : TypeSpec},
      (∀ v ∈ vs, ∀ u, obs v = .ok u → e.isCompatible u = true) →
      (∀ u, first = some u → e.isCompatible u = true) →
      firstMisfit obs e first vs = .ok t → e.isCompatible t = true
  | [], first, t, _, hfirst, h => by
      rw [firstMisfit] at h
      cases h
      cases first with
      | none => exact TypeSpec.isCompatible_self he
      | some u => exact hfirst u rfl
  | v :: vs, first, t, hvs, hfirst, h => by
      obtain ⟨hv, hvs⟩ := List.forall_mem_cons.1 hvs
      rw [firstMisfit] at h
      obtain ⟨u, hu, h⟩ := Step.bind_eq_ok.1 h
      split at h
      · obtain rfl : u = t := Except.ok.inj h
        exact hv _ hu
      · refine firstMisfit_of_forall he hvs (fun w hw => ?_) h
        cases first with
        | none =>
            obtain rfl : u = w := Option.some.inj hw
            exact hv _ hu
        | some u' => exact hfirst w hw

/-! ## 4. Fields -/

/-- The field that an entry is stored as. -/
theorem find?_store {f f' : Filling TypeSpec} {kept : List String} {name key : String} {t : TypeSpec}
    (hkey : key ≠ ancestorName) (h : f.store kept name t = some f') :
    f'.entries.find? key = if key = name then some t else f.entries.find? key := by
  by_cases hn : name = ancestorName
  · subst hn
    rw [Filling.store_ancestor] at h
    obtain rfl := Option.some.inj h
    rw [if_neg hkey]
  · rw [(Filling.store_entry hn h).1, Entries.find?_insert]

/-- Observed under two hints, an entry is a field twice or not at all. -/
theorem observeFields_lockstep {obs : Hint → Value → Except Fault TypeSpec} {hint hint' : Hint}
    {key : String} (hkey : key ≠ ancestorName) : ∀ {entries : Entries Value}
    {f f' out out' : Filling TypeSpec},
      (∀ t, f.entries.find? key = some t → ∃ u w, f'.entries.find? key = some u ∧
        obs (hint.part key) w = .ok t ∧ obs (hint'.part key) w = .ok u) →
      observeFields obs hint f entries = .ok out → observeFields obs hint' f' entries = .ok out' →
      ∀ t, out.entries.find? key = some t → ∃ u w, out'.entries.find? key = some u ∧
        obs (hint.part key) w = .ok t ∧ obs (hint'.part key) w = .ok u
  | [], _, _, _, _, hinv, h, h' => by
      cases h
      cases h'
      exact hinv
  | (name, w) :: entries, f, f', out, out', hinv, h, h' => by
      rw [observeFields] at h h'
      split at h
      · rw [if_pos (by assumption)] at h'
        exact observeFields_lockstep hkey hinv h h'
      · rw [if_neg (by assumption)] at h'
        obtain ⟨t, ht, h⟩ := Step.bind_eq_ok.1 h
        obtain ⟨u, hu, h'⟩ := Step.bind_eq_ok.1 h'
        split at h
        · rename_i f₁ hf₁
          split at h'
          · rename_i f₁' hf₁'
            refine observeFields_lockstep hkey (fun s hs => ?_) h h'
            rw [find?_store hkey hf₁] at hs
            rw [find?_store hkey hf₁']
            by_cases hk : key = name
            · subst hk
              rw [if_pos rfl] at hs ⊢
              obtain rfl := Option.some.inj hs
              exact ⟨u, w, rfl, ht, hu⟩
            · rw [if_neg hk] at hs ⊢
              exact hinv s hs
          · cases h'
        · cases h

/-! ## 5. Weaker types -/

/-- Observations under a type, and under a weaker one that is to be met as well. -/
def Weakens (obs : Hint → Value → Except Fault TypeSpec) (weak : TypeSpec) : Prop :=
  ∀ {v : Value} {strong t u : TypeSpec}, weak.isCompatible strong = true →
    obs (.type strong) v = .ok t → strong.isCompatible t = true → obs (.type weak) v = .ok u →
    weak.isCompatible u = true

theorem weakens_leaf (weak : TypeSpec) : Weakens (fun _ w => leafType w) weak := by
  intro v strong t u hweak ht hstrong hu
  obtain rfl : t = u := Except.ok.inj (ht.symm.trans hu)
  exact TypeSpec.isCompatible_trans weak hweak hstrong

theorem Inner.weakens {g : Graph} {obs : Hint → Value → Except Fault TypeSpec} (h : Inner g obs)
    {weak : TypeSpec} (hwalk : ∀ keyed visiting : List Nat,
      Weakens (fun hint w => g.observeAt keyed visiting hint w) weak) : Weakens obs weak := by
  cases h with
  | leaf => exact weakens_leaf weak
  | walk keyed visiting => exact hwalk keyed visiting

theorem elementType_weaken {obs : Hint → Value → Except Fault TypeSpec} {weak strong : TypeSpec}
    (hwf : weak.WellFormed) (hobs : Weakens obs weak) (hweak : weak.isCompatible strong = true)
    {items : List Value} {t u : TypeSpec}
    (ht : elementType (obs (.type strong)) (some strong) items = .ok t)
    (hstrong : strong.isCompatible t = true)
    (hu : elementType (obs (.type weak)) (some weak) items = .ok u) : weak.isCompatible u = true := by
  refine firstMisfit_of_forall hwf (fun v hv s hs => ?_) (fun _ h => by cases h) hu
  obtain ⟨r, hr, hr'⟩ := forall_of_firstMisfit ht hstrong v hv
  exact hobs hweak hr hr' hs

theorem listType_eq_ok {obs : Hint → Value → Except Fault TypeSpec} {hint : Hint}
    {items : List Value} {t : TypeSpec} (h : listType obs hint items = .ok t) :
    ∃ e, t = .sequence e ∧ elementType (obs hint.element) hint.element.type? items = .ok e := by
  obtain ⟨e, he, h⟩ := Step.bind_eq_ok.1 h
  cases h
  exact ⟨e, rfl, he⟩

theorem mapType_eq_ok {obs : Hint → Value → Except Fault TypeSpec}
    {keyObs : Value → Except Fault TypeSpec} {hint : Hint} {entries : List (Value × Value)}
    {t : TypeSpec} (h : mapType obs keyObs hint entries = .ok t) :
    ∃ kinds e kind, t = .mapping kind e ∧ keyKinds keyObs [] (entries.map Prod.fst) = .ok kinds ∧
      elementType (obs hint.value) hint.value.type? (entries.map Prod.snd) = .ok e ∧
      keyKind hint kinds = .ok kind := by
  obtain ⟨kinds, hkinds, h⟩ := Step.bind_eq_ok.1 h
  obtain ⟨e, he, h⟩ := Step.bind_eq_ok.1 h
  obtain ⟨kind, hkind, h⟩ := Step.bind_eq_ok.1 h
  cases h
  exact ⟨kinds, e, kind, rfl, hkinds, he, hkind⟩

theorem tableType_eq_ok {obs : Hint → Value → Except Fault TypeSpec} {hint : Hint}
    {entries : Entries Value} {t : TypeSpec} (h : tableType obs hint entries = .ok t) :
    (hint.sort? = some "record" ∧ ∃ f, t = .record f.entries none ∧
        observeFields obs (hint.part "fields") {} entries = .ok f) ∨
      (hint.sort? ≠ some "record" ∧ ∃ e, t = .mapping .string e ∧
        elementType (obs hint.value) hint.value.type? entries.contents = .ok e) := by
  unfold tableType at h
  split at h
  · rename_i hsort
    obtain ⟨f, hf, h⟩ := Step.bind_eq_ok.1 h
    split at h
    · cases h
    · cases h
      exact Or.inl ⟨hsort, f, rfl, hf⟩
  · rename_i hsort
    obtain ⟨e, he, h⟩ := Step.bind_eq_ok.1 h
    cases h
    exact Or.inr ⟨hsort, e, rfl, he⟩

namespace View

variable {g : Graph} {f : Hint → Except Fault TypeSpec} {strong t u : TypeSpec}

theorem weaken_array (hf : View g f) {k : ScalarKind} {ds : List Dimension}
    (hweak : (TypeSpec.array k ds).isCompatible strong = true) (ht : f (.type strong) = .ok t)
    (hstrong : strong.isCompatible t = true) (hu : f (.type (.array k ds)) = .ok u) :
    (TypeSpec.array k ds).isCompatible u = true := by
  have htrans := TypeSpec.isCompatible_trans _ hweak hstrong
  obtain ⟨es, rfl, hes⟩ := TypeSpec.isCompatible_array_iff.1 htrans
  cases hf with
  | fixed r =>
      obtain rfl : TypeSpec.array k es = u := Except.ok.inj (ht.symm.trans hu)
      exact htrans
  | list items _ =>
      obtain ⟨e, h, _⟩ := listType_eq_ok ht
      cases h
  | table entries _ =>
      rcases tableType_eq_ok ht with ⟨_, _, h, _⟩ | ⟨_, _, h, _⟩ <;> cases h
  | map keyObs entries _ =>
      obtain ⟨_, _, _, h, _⟩ := mapType_eq_ok ht
      cases h

theorem weaken_sequence (hf : View g f) {e : TypeSpec} (he : e.WellFormed)
    (hobs : ∀ {obs : Hint → Value → Except Fault TypeSpec}, Inner g obs → Weakens obs e)
    (hweak : (TypeSpec.sequence e).isCompatible strong = true) (ht : f (.type strong) = .ok t)
    (hstrong : strong.isCompatible t = true) (hu : f (.type (.sequence e)) = .ok u) :
    (TypeSpec.sequence e).isCompatible u = true := by
  obtain ⟨e', rfl, hee⟩ := TypeSpec.isCompatible_sequence_iff.1 hweak
  obtain ⟨r, rfl, her⟩ := TypeSpec.isCompatible_sequence_iff.1 hstrong
  cases hf with
  | fixed r' =>
      obtain rfl : TypeSpec.sequence r = u := Except.ok.inj (ht.symm.trans hu)
      exact TypeSpec.isCompatible_trans _ hweak hstrong
  | list items hinner =>
      obtain ⟨x, hx, hx'⟩ := listType_eq_ok ht
      obtain ⟨y, rfl, hy⟩ := listType_eq_ok hu
      obtain rfl : r = x := TypeSpec.sequence.inj hx
      exact TypeSpec.isCompatible_sequence_iff.2
        ⟨y, rfl, elementType_weaken he (hobs hinner) hee hx' her hy⟩
  | table entries _ =>
      rcases tableType_eq_ok ht with ⟨_, _, h, _⟩ | ⟨_, _, h, _⟩ <;> cases h
  | map keyObs entries _ =>
      obtain ⟨_, _, _, h, _⟩ := mapType_eq_ok ht
      cases h

theorem weaken_mapping (hf : View g f) {k : ScalarKind} {e : TypeSpec} (he : e.WellFormed)
    (hobs : ∀ {obs : Hint → Value → Except Fault TypeSpec}, Inner g obs → Weakens obs e)
    (hweak : (TypeSpec.mapping k e).isCompatible strong = true) (ht : f (.type strong) = .ok t)
    (hstrong : strong.isCompatible t = true) (hu : f (.type (.mapping k e)) = .ok u) :
    (TypeSpec.mapping k e).isCompatible u = true := by
  obtain ⟨e', rfl, hee⟩ := TypeSpec.isCompatible_mapping_iff.1 hweak
  obtain ⟨r, rfl, her⟩ := TypeSpec.isCompatible_mapping_iff.1 hstrong
  cases hf with
  | fixed r' =>
      obtain rfl : TypeSpec.mapping k r = u := Except.ok.inj (ht.symm.trans hu)
      exact TypeSpec.isCompatible_trans _ hweak hstrong
  | list items _ =>
      obtain ⟨_, h, _⟩ := listType_eq_ok ht
      cases h
  | table entries hinner =>
      rcases tableType_eq_ok ht with ⟨_, _, h, _⟩ | ⟨_, x, hx, hx'⟩
      · cases h
      · rcases tableType_eq_ok hu with ⟨hsort, _⟩ | ⟨_, y, rfl, hy⟩
        · simp [Hint.sort?, TypeSpec.sortName] at hsort
        · obtain ⟨rfl, rfl⟩ := TypeSpec.mapping.inj hx
          exact TypeSpec.isCompatible_mapping_iff.2
            ⟨y, rfl, elementType_weaken he (hobs hinner) hee hx' her hy⟩
  | map keyObs entries hinner =>
      obtain ⟨kinds, x, kind, hx, hkinds, hx', hkind⟩ := mapType_eq_ok ht
      obtain ⟨kinds', y, kind', rfl, hkinds', hy, hkind'⟩ := mapType_eq_ok hu
      obtain ⟨rfl, rfl⟩ := TypeSpec.mapping.inj hx
      obtain rfl : kinds = kinds' := Except.ok.inj (hkinds.symm.trans hkinds')
      -- the two hints give the same kind to fall back on
      obtain rfl : k = kind' := by
        have hsame : keyKind (.type (.mapping k e')) kinds = keyKind (.type (.mapping k e)) kinds := by
          unfold keyKind
          split <;> rfl
        exact Except.ok.inj (hkind.symm.trans (hsame.trans hkind'))
      exact TypeSpec.isCompatible_mapping_iff.2
        ⟨y, rfl, elementType_weaken he (hobs hinner) hee hx' her hy⟩

theorem weaken_record (hf : View g f) {fs : Schema} {ancestor : Option TypeSpec}
    (hfs : fs.WellFormed)
    (hobs : ∀ e ∈ fs, ∀ {obs : Hint → Value → Except Fault TypeSpec}, Inner g obs → Weakens obs e.2)
    (hweak : (TypeSpec.record fs ancestor).isCompatible strong = true)
    (ht : f (.type strong) = .ok t) (hstrong : strong.isCompatible t = true)
    (hu : f (.type (.record fs ancestor)) = .ok u) :
    (TypeSpec.record fs ancestor).isCompatible u = true := by
  obtain ⟨gs, other, rfl, hfg⟩ := TypeSpec.isCompatible_record_iff.1 hweak
  obtain ⟨rs, another, rfl, hgr⟩ := TypeSpec.isCompatible_record_iff.1 hstrong
  cases hf with
  | fixed r' =>
      obtain rfl : TypeSpec.record rs another = u := Except.ok.inj (ht.symm.trans hu)
      exact TypeSpec.isCompatible_trans _ hweak hstrong
  | list items _ =>
      obtain ⟨_, h, _⟩ := listType_eq_ok ht
      cases h
  | table entries hinner =>
      rcases tableType_eq_ok ht with ⟨_, out, hout, hfields⟩ | ⟨hsort, _⟩
      · rcases tableType_eq_ok hu with ⟨_, out', rfl, hfields'⟩ | ⟨hsort, _⟩
        · refine TypeSpec.isCompatible_record_iff.2 ⟨_, _, rfl, fun e he => ?_⟩
          obtain ⟨s, hs, hes⟩ := hfg e he
          obtain ⟨x, hx, hsx⟩ := hgr _ (Entries.mem_of_find? hs)
          obtain ⟨rfl, rfl⟩ := TypeSpec.record.inj hout
          obtain ⟨y, w, hy, hw, hw'⟩ := observeFields_lockstep (hfs.proper e he).2
            (fun t h => by cases h) hfields hfields' x hx
          refine ⟨y, hy, ?_⟩
          rw [Hint.part_fields_record hs] at hw
          rw [Hint.part_fields_record (hfs.distinct.find?_of_mem he)] at hw'
          exact hobs e he hinner hes hw hsx hw'
        · exact absurd rfl hsort
      · exact absurd rfl hsort
  | map keyObs entries _ =>
      obtain ⟨_, _, _, h, _⟩ := mapType_eq_ok ht
      cases h

end View

/-- **What meets a type when it is observed under it meets every weaker type**, when it is observed
    under that. -/
theorem observeAt_weaken (g : Graph) {weak : TypeSpec} (hwf : weak.WellFormed) :
    ∀ keyed visiting : List Nat, Weakens (g.observeAt keyed visiting) weak := by
  induction hwf with
  | scalar k =>
      intro _ _ v strong t u hweak ht hstrong hu
      obtain rfl := TypeSpec.isCompatible_scalar_iff.1 hweak
      obtain rfl : t = u := Except.ok.inj (ht.symm.trans hu)
      exact hstrong
  | handle _ =>
      intro _ _ v strong t u hweak ht hstrong hu
      obtain rfl := TypeSpec.isCompatible_handle_iff.1 hweak
      obtain rfl : t = u := Except.ok.inj (ht.symm.trans hu)
      exact hstrong
  | array k hpos =>
      intro keyed visiting v strong t u hweak ht hstrong hu
      exact (view_observeAt g keyed visiting v).weaken_array hweak ht hstrong hu
  | sequence he ih =>
      intro keyed visiting v strong t u hweak ht hstrong hu
      exact (view_observeAt g keyed visiting v).weaken_sequence he
        (fun hinner => hinner.weakens ih) hweak ht hstrong hu
  | mapping k hv ih =>
      intro keyed visiting v strong t u hweak ht hstrong hu
      exact (view_observeAt g keyed visiting v).weaken_mapping hv
        (fun hinner => hinner.weakens ih) hweak ht hstrong hu
  | record hd hproper hw _ ih _ =>
      intro keyed visiting v strong t u hweak ht hstrong hu
      exact (view_observeAt g keyed visiting v).weaken_record ⟨hd, hproper, hw⟩
        (fun e he _ hinner => hinner.weakens (ih e he)) hweak ht hstrong hu

end SchemaFlow
