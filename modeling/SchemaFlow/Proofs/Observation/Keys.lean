import SchemaFlow.Proofs.Observation.Acceptance
import SchemaFlow.Proofs.Observation.Forms
import SchemaFlow.Proofs.Observation.Nodes

/-!
# The keys of maps

A map exhibits a mapping with one kind of keys, and it may have keys of several kinds, or keys that
are no scalars. What is shown is the only kind among its scalar keys; where there is no such kind, it
is the kind that was asked for. So a map that is accepted under a mapping has accepted values only,
but not only keys of the kind.

* `mem_keyKinds_iff`, `nodup_keyKinds`: the kinds that are collected are those of the scalar keys.
* `mapType_accepted_iff`: what a map is accepted by.
* `Graph.map_accepted`: a map whose keys are scalars of one kind is accepted exactly when each key
  and each value is.
-/

namespace SchemaFlow

/-! ## 1. The kinds of keys -/

section Kinds

variable {keyObs : Value → Except Fault TypeSpec}

/-- The kinds that are collected: those at hand, and those of the keys that are scalars. -/
theorem mem_keyKinds_iff : ∀ {keys : List Value} {kinds out : List ScalarKind},
    keyKinds keyObs kinds keys = .ok out → ∀ kind, kind ∈ out ↔
      kind ∈ kinds ∨ ∃ key ∈ keys, keyObs key = .ok (.scalar kind)
  | [], kinds, out, h, kind => by
      cases h
      simp
  | key :: keys, kinds, out, h, kind => by
      rw [keyKinds] at h
      obtain ⟨t, ht, h⟩ := Step.bind_eq_ok.1 h
      have hhead : (∃ k ∈ key :: keys, keyObs k = .ok (.scalar kind)) ↔
          t = .scalar kind ∨ ∃ k ∈ keys, keyObs k = .ok (.scalar kind) := by
        simp [ht]
      rw [hhead]
      cases t with
      | scalar other =>
          have hfound : kind ∈ (if kinds.contains other then kinds else kinds ++ [other]) ↔
              kind ∈ kinds ∨ other = kind := by
            cases hold : kinds.contains other with
            | true =>
                have hmem : other ∈ kinds := by simpa using hold
                rw [if_pos rfl]
                refine ⟨Or.inl, ?_⟩
                rintro (h | rfl)
                · exact h
                · exact hmem
            | false => simp [eq_comm]
          rw [mem_keyKinds_iff h, hfound, TypeSpec.scalar.injEq, or_assoc]
      | _ => rw [mem_keyKinds_iff h]; simp

/-- Each kind is collected once. -/
theorem nodup_keyKinds : ∀ {keys : List Value} {kinds out : List ScalarKind}, kinds.Nodup →
    keyKinds keyObs kinds keys = .ok out → out.Nodup
  | [], kinds, out, hd, h => by
      cases h
      exact hd
  | key :: keys, kinds, out, hd, h => by
      rw [keyKinds] at h
      obtain ⟨t, _, h⟩ := Step.bind_eq_ok.1 h
      cases t with
      | scalar other =>
          refine nodup_keyKinds ?_ h
          cases hold : kinds.contains other with
          | true => exact hd
          | false =>
              have hnew : other ∉ kinds := by simpa using hold
              rw [if_neg (by simp)]
              exact List.nodup_append.2 ⟨hd, List.nodup_singleton other, by
                rintro x hx y hy rfl
                exact hnew (List.mem_singleton.1 hy ▸ hx)⟩
      | _ => exact nodup_keyKinds hd h

/-- The scalars among the keys are all of one kind, and there are some. -/
def OnlyKeyKind (keyObs : Value → Except Fault TypeSpec) (keys : List Value) (kind : ScalarKind) :
    Prop :=
  (∃ key ∈ keys, keyObs key = .ok (.scalar kind)) ∧
    ∀ key ∈ keys, ∀ other, keyObs key = .ok (.scalar other) → other = kind

/-- A single kind is collected when the scalar keys are of that kind. -/
theorem keyKinds_singleton_iff {keys : List Value} {kinds : List ScalarKind}
    (h : keyKinds keyObs [] keys = .ok kinds) (kind : ScalarKind) :
    kinds = [kind] ↔ OnlyKeyKind keyObs keys kind := by
  have hmem : ∀ other, other ∈ kinds ↔ ∃ key ∈ keys, keyObs key = .ok (.scalar other) := by
    intro other
    simpa using mem_keyKinds_iff h other
  constructor
  · rintro rfl
    refine ⟨(hmem kind).1 List.mem_cons_self, fun key hkey other hother => ?_⟩
    exact List.mem_singleton.1 ((hmem other).2 ⟨key, hkey, hother⟩)
  · rintro ⟨hsome, hall⟩
    have hperm : kinds.Perm [kind] := by
      refine (List.perm_ext_iff_of_nodup (nodup_keyKinds List.nodup_nil h)
        (List.nodup_singleton kind)).2 fun other => ?_
      rw [hmem, List.mem_singleton]
      constructor
      · rintro ⟨key, hkey, hother⟩
        exact hall key hkey other hother
      · rintro rfl
        exact hsome
    exact List.perm_singleton.1 hperm

/-- Under a mapping the kind that is shown is the one that was asked for, unless there is a single
    one and it is another. -/
theorem keyKind_eq_iff {k kind : ScalarKind} {e : TypeSpec} {kinds : List ScalarKind}
    (h : keyKind (.type (.mapping k e)) kinds = .ok kind) :
    kind = k ↔ ∀ other, kinds = [other] → other = k := by
  have hasked : Hint.sort? (.type (.mapping k e)) = some "mapping" := rfl
  unfold keyKind at h
  cases kinds with
  | nil =>
      rw [hasked] at h
      cases h
      simp
  | cons first rest =>
      cases rest with
      | nil =>
          cases h
          simp
      | cons second rest =>
          rw [hasked] at h
          cases h
          simp

end Kinds

/-! ## 2. Maps -/

/-- **A map is accepted under a mapping when no other kind of keys is the only one, and all values
    are accepted.** -/
theorem mapType_accepted_iff {obs : Hint → Value → Except Fault TypeSpec}
    {keyObs : Value → Except Fault TypeSpec} {k : ScalarKind} {e u : TypeSpec} (he : e.WellFormed)
    {entries : List (Value × Value)} (hu : mapType obs keyObs (.type (.mapping k e)) entries = .ok u) :
    (TypeSpec.mapping k e).isCompatible u = true ↔
      (∀ kind, OnlyKeyKind keyObs (entries.map Prod.fst) kind → kind = k) ∧
        ∀ x ∈ entries, Accepted obs e x.2 := by
  obtain ⟨kinds, t, kind, rfl, hkinds, ht, hkind⟩ := mapType_eq_ok hu
  have hkeys : kind = k ↔ ∀ other, OnlyKeyKind keyObs (entries.map Prod.fst) other → other = k := by
    rw [keyKind_eq_iff hkind]
    exact forall_congr' fun other => by rw [keyKinds_singleton_iff hkinds]
  have hvalues : e.isCompatible t = true ↔ ∀ x ∈ entries, Accepted obs e x.2 := by
    constructor
    · intro hcompatible x hx
      exact forall_of_firstMisfit ht hcompatible x.2 (List.mem_map_of_mem hx)
    · intro hall
      by_contra hmisfit
      obtain ⟨w, hw, s, hs, hrefused⟩ := refused_of_firstMisfit he (fun _ h => by cases h) ht
        (Bool.eq_false_iff.2 hmisfit)
      obtain ⟨x, hx, rfl⟩ := List.mem_map.1 hw
      obtain ⟨s', hs', haccepted⟩ := hall x hx
      obtain rfl : s = s' := Except.ok.inj (hs.symm.trans hs')
      rw [haccepted] at hrefused
      cases hrefused
  rw [TypeSpec.isCompatible_mapping_iff, ← hkeys, ← hvalues]
  constructor
  · rintro ⟨w, hw, hcompatible⟩
    obtain ⟨rfl, rfl⟩ := TypeSpec.mapping.inj hw
    exact ⟨rfl, hcompatible⟩
  · rintro ⟨rfl, hcompatible⟩
    exact ⟨t, rfl, hcompatible⟩

namespace Graph

variable {g : Graph} {id : Nat} {entries : List (Value × Value)}

/-- The keys of a map that are observed as scalars of a kind. -/
def KeysAre (g : Graph) (entries : List (Value × Value)) (kind : ScalarKind) : Prop :=
  ∀ x ∈ entries, g.observe none x.1 = .ok (.scalar kind)

/-- What is observed of every value of a map under a type is compatible with the type. -/
def ValuesFit (g : Graph) (entries : List (Value × Value)) (e : TypeSpec) : Prop :=
  ∀ x ∈ entries, ∃ t, g.observe (some e) x.2 = .ok t ∧ e.isCompatible t = true

/-- **What a map is accepted by under a mapping.** Its values have to fit, and no other kind may be
    the only one among its scalar keys. So a map that has keys of the kind only and values that fit is
    accepted; and a map whose keys are scalars of one kind is accepted in no other case. -/
theorem map_accepted (hnode : g.node? id = some (.map entries)) (hv : g.Acyclic (.node id))
    {k : ScalarKind} {e u : TypeSpec} (he : e.WellFormed)
    (hu : g.observe (some (.mapping k e)) (.node id) = .ok u) :
    ((TypeSpec.mapping k e).isCompatible u = true ↔
      (∀ kind, OnlyKeyKind (g.observe none) (entries.map Prod.fst) kind → kind = k) ∧
        g.ValuesFit entries e) ∧
    (g.KeysAre entries k → g.ValuesFit entries e → (TypeSpec.mapping k e).isCompatible u = true) ∧
    ((∃ kind, g.KeysAre entries kind) →
      ((TypeSpec.mapping k e).isCompatible u = true ↔
        g.KeysAre entries k ∧ g.ValuesFit entries e)) := by
  have hform : g.form (.node id) = .map entries := by
    show g.nodeForm id = .map entries
    unfold nodeForm
    rw [hnode]
  have hmap : mapType (fun hint w => g.observeAt [] [] hint w) (fun w => g.observeAt [] [] .none w)
      (.type (.mapping k e)) entries = .ok u := by
    have hshown := observe_form hv (.type (.mapping k e))
    rw [hform] at hshown
    exact hshown.symm.trans hu
  have hexact : (TypeSpec.mapping k e).isCompatible u = true ↔
      (∀ kind, OnlyKeyKind (g.observe none) (entries.map Prod.fst) kind → kind = k) ∧
        g.ValuesFit entries e := mapType_accepted_iff he hmap
  -- of keys that are all of one kind this kind is the only one
  have honly : ∀ {kind other}, g.KeysAre entries kind →
      OnlyKeyKind (g.observe none) (entries.map Prod.fst) other → other = kind := by
    rintro kind other hkeys ⟨⟨key, hkey, hother⟩, -⟩
    obtain ⟨x, hx, rfl⟩ := List.mem_map.1 hkey
    exact (TypeSpec.scalar.inj (Except.ok.inj ((hkeys x hx).symm.trans hother))).symm
  have hsuffices : g.KeysAre entries k → g.ValuesFit entries e →
      (TypeSpec.mapping k e).isCompatible u = true := fun hkeys hvalues =>
    hexact.2 ⟨fun kind => honly hkeys, hvalues⟩
  refine ⟨hexact, hsuffices, ?_⟩
  rintro ⟨kind, hkeys⟩
  refine ⟨fun hcompatible => ?_, fun h => hsuffices h.1 h.2⟩
  obtain ⟨hkind, hvalues⟩ := hexact.1 hcompatible
  refine ⟨fun x hx => ?_, hvalues⟩
  have hone : OnlyKeyKind (g.observe none) (entries.map Prod.fst) kind := by
    refine ⟨⟨x.1, List.mem_map_of_mem hx, hkeys x hx⟩, fun key hkey other hother => ?_⟩
    obtain ⟨y, hy, rfl⟩ := List.mem_map.1 hkey
    exact (TypeSpec.scalar.inj (Except.ok.inj ((hkeys y hy).symm.trans hother))).symm
  rw [← hkind kind hone]
  exact hkeys x hx

end Graph

/-! ## 3. Keys that do not show -/

/-- A map with keys of one kind, one with keys of two, and one with a key that is no scalar. -/
def Graph.keysSample : Graph :=
  ⟨#[.map [(.text "a", .number 1), (.text "b", .number 2)],
    .map [(.text "a", .number 1), (.whole 5, .number 2)],
    .map [(.text "a", .number 1), (.node 3, .number 2)], .object .plain []]⟩

/-- All of them show keys that are texts. -/
theorem Graph.keysSample_observe {id : Nat} (hid : id ∈ [0, 1, 2]) :
    keysSample.observe (some (.mapping .string (.scalar .float))) (.node id) =
      .ok (.mapping .string (.scalar .float)) := by
  simp only [List.mem_cons, List.not_mem_nil, or_false] at hid
  rcases hid with rfl | rfl | rfl <;>
    simp [observe, observeAt, keysSample, node?, mapType, keyKinds, keyKind, hintedKey, elementType,
      firstMisfit, tableType, description?, describing, leafType, Hint.ofType?, Hint.sort?,
      Hint.value, Hint.part, Hint.ofPart, Hint.type?, TypeSpec.sortName, TypeSpec.diagnose,
      Entries.contents]

theorem Graph.keysSample_acyclic {id : Nat} (hid : id ∈ [0, 1, 2]) :
    keysSample.Acyclic (.node id) := by
  have hempty : ∀ w ∈ keysSample.held (.node id), keysSample.held w = [] ∧ w ≠ .node id := by
    simp only [List.mem_cons, List.not_mem_nil, or_false] at hid
    rcases hid with rfl | rfl | rfl <;> simp [held, keysSample, node?]
  refine acyclic_of_holds fun w hw => ?_
  obtain ⟨hnothing, hne⟩ := hempty w hw
  exact ⟨acyclic_of_held hnothing, fun hback => hne (eq_of_reaches hnothing hback).symm⟩

/-- The first map of the sample has texts as keys. It is accepted, so its values fit. -/
theorem Graph.map_accepted_texts :
    keysSample.node? 0 = some (.map [(.text "a", .number 1), (.text "b", .number 2)]) ∧
      keysSample.Acyclic (.node 0) ∧ (TypeSpec.scalar .float).WellFormed ∧
      keysSample.observe (some (.mapping .string (.scalar .float))) (.node 0) =
        .ok (.mapping .string (.scalar .float)) ∧
      keysSample.KeysAre [(.text "a", .number 1), (.text "b", .number 2)] .string ∧
      (TypeSpec.mapping .string (.scalar .float)).isCompatible (.mapping .string (.scalar .float)) =
        true ∧
      keysSample.ValuesFit [(.text "a", .number 1), (.text "b", .number 2)] (.scalar .float) := by
  have hkeys : keysSample.KeysAre [(.text "a", .number 1), (.text "b", .number 2)] .string := by
    simp [KeysAre, observe, observeAt, leafType]
  have hcompatible : (TypeSpec.mapping .string (.scalar .float)).isCompatible
      (.mapping .string (.scalar .float)) = true := by decide
  have hacyclic : keysSample.Acyclic (.node 0) := keysSample_acyclic (by decide)
  have hshown := @keysSample_observe 0 (by decide)
  obtain ⟨-, -, hiff⟩ := map_accepted rfl hacyclic (.scalar .float) hshown
  obtain ⟨-, hvalues⟩ := (hiff ⟨.string, hkeys⟩).1 hcompatible
  exact ⟨rfl, hacyclic, .scalar .float, hshown, hkeys, hcompatible, hvalues⟩

/-- **A map may be accepted although a key does not fit**: with keys of two kinds, and with a key that
    is no scalar. -/
theorem Graph.not_map_accepted :
    (keysSample.Acyclic (.node 1) ∧
      keysSample.node? 1 = some (.map [(.text "a", .number 1), (.whole 5, .number 2)]) ∧
      keysSample.observe (some (.mapping .string (.scalar .float))) (.node 1) =
        .ok (.mapping .string (.scalar .float)) ∧
      (TypeSpec.mapping .string (.scalar .float)).isCompatible (.mapping .string (.scalar .float)) =
        true ∧
      ¬ keysSample.KeysAre [(.text "a", .number 1), (.whole 5, .number 2)] .string) ∧
    keysSample.Acyclic (.node 2) ∧
      keysSample.node? 2 = some (.map [(.text "a", .number 1), (.node 3, .number 2)]) ∧
      keysSample.observe (some (.mapping .string (.scalar .float))) (.node 2) =
        .ok (.mapping .string (.scalar .float)) ∧
      (TypeSpec.mapping .string (.scalar .float)).isCompatible (.mapping .string (.scalar .float)) =
        true ∧
      ¬ keysSample.KeysAre [(.text "a", .number 1), (.node 3, .number 2)] .string := by
  have hcompatible : (TypeSpec.mapping .string (.scalar .float)).isCompatible
      (.mapping .string (.scalar .float)) = true := by decide
  refine ⟨⟨keysSample_acyclic (by decide), rfl, keysSample_observe (by decide), hcompatible,
    fun hkeys => ?_⟩, keysSample_acyclic (by decide), rfl, keysSample_observe (by decide), hcompatible,
    fun hkeys => ?_⟩
  · have hwhole := hkeys (.whole 5, .number 2) (by simp)
    simp [observe, observeAt, leafType] at hwhole
  · have htable := hkeys (.node 3, .number 2) (by simp)
    simp [observe, observeAt, keysSample, node?, tableType, description?, describing, elementType,
      Hint.ofType?, Hint.sort?, Hint.value, Hint.type?, Entries.contents] at htable

end SchemaFlow
