import SchemaFlow.Proofs.Observation.Plain

/-!
# Values that conform to types

A value that conforms to a type conforms to every weaker one (`Graph.Conforms.weaken`). Of payload
values conformance can be told field by field: a plain object conforms to a record when each of its
fields conforms to the type that is declared for it (`conforms_record_iff`).
-/

namespace SchemaFlow

/-! ## 1. Weaker types -/

theorem Graph.Conforms.weaken {g : Graph} {strong weak : TypeSpec} {v : Value}
    (h : g.Conforms strong v) (hwf : weak.WellFormed) (hweak : weak.isCompatible strong = true)
    (hv : g.Observable v) : g.Conforms weak v := by
  obtain ⟨hpresent, t, ht, hstrong⟩ := h
  obtain ⟨u, hu⟩ := hv (some weak)
  exact ⟨hpresent, u, hu, observeAt_weaken g hwf [] [] hweak ht hstrong hu⟩

/-- A type conforms to what it may stand for. -/
theorem Graph.conforms_type_iff {g : Graph} {t demanded : TypeSpec} :
    g.Conforms demanded (.type t) ↔ demanded.isCompatible t = true := by
  constructor
  · rintro ⟨_, u, hu, hcompatible⟩
    obtain rfl : t = u := Except.ok.inj ((g.observe_type _ t).symm.trans hu)
    exact hcompatible
  · exact fun h => ⟨rfl, t, g.observe_type _ t, h⟩

/-- Where a value conforms to a record it is seen as one. -/
theorem looksRecord_of_conforms {g : Graph} {v : Value} (hv : g.Observable v) {fs : Schema}
    {ancestor : Option TypeSpec} (h : g.Conforms (.record fs ancestor) v) :
    g.looksRecord v = true := by
  obtain ⟨_, t, ht, hcompatible⟩ := h
  obtain ⟨rs, other, rfl, _⟩ := TypeSpec.isCompatible_record_iff.1 hcompatible
  obtain ⟨u, hu⟩ := hv (some TypeSpec.emptyRecord)
  refine looksRecord_iff.2 ?_
  unfold Graph.observe at ht hu ⊢
  have hview := view_observeAt g [] [] v
  generalize hf : (fun hint => g.observeAt [] [] hint v) = f at hview
  have hfv : ∀ hint, g.observeAt [] [] hint v = f hint := fun hint => congrFun hf hint
  rw [hfv] at ht hu ⊢
  cases hview with
  | fixed r => exact ⟨rs, other, ht⟩
  | list items _ =>
      obtain ⟨_, h, _⟩ := listType_eq_ok ht
      cases h
  | table entries _ =>
      rcases tableType_eq_ok hu with ⟨_, out, rfl, _⟩ | ⟨hsort, _⟩
      · exact ⟨_, _, hu⟩
      · exact absurd rfl hsort
  | map keyObs entries _ =>
      obtain ⟨_, _, _, h, _⟩ := mapType_eq_ok ht
      cases h

theorem Graph.conforms_leaf {g : Graph} {v : Value} (hleaf : v.isContainer = false)
    (hpresent : v.isAbsent = false) {t u : TypeSpec} (hu : leafType v = .ok u)
    (hcompatible : t.isCompatible u = true) : g.Conforms t v :=
  ⟨hpresent, u, (observeAt_leaf g [] [] _ hleaf).trans hu, hcompatible⟩

/-! ## 2. Fields as they are observed -/

/-- A name that no present entry has is left as it was. -/
theorem find?_observeFields_absent {obs : Hint → Value → Except Fault TypeSpec} {hint : Hint}
    {key : String} (hkey : key ≠ ancestorName) : ∀ {entries : Entries Value}
    {f out : Filling TypeSpec}, (∀ e ∈ entries, e.1 = key → e.2.isAbsent = true) →
      observeFields obs hint f entries = .ok out → out.entries.find? key = f.entries.find? key
  | [], f, out, _, h => by
      cases h
      rfl
  | (name, w) :: entries, f, out, habsent, h => by
      obtain ⟨hw, habsent⟩ := List.forall_mem_cons.1 habsent
      rw [observeFields] at h
      split at h
      · exact find?_observeFields_absent hkey habsent h
      · rename_i hpresent
        obtain ⟨t, _, h⟩ := Step.bind_eq_ok.1 h
        split at h
        · rename_i f₁ hf₁
          have hne : ¬ key = name := fun hk => hpresent (hw hk.symm)
          rw [find?_observeFields_absent hkey habsent h, find?_store hkey hf₁, if_neg hne]
        · cases h

/-- **The field of a name is what is observed of the entry of that name.** -/
theorem find?_observeFields {obs : Hint → Value → Except Fault TypeSpec} {hint : Hint}
    {key : String} (hkey : key ≠ ancestorName) : ∀ {entries : Entries Value}
    {f out : Filling TypeSpec}, entries.Distinct →
      observeFields obs hint f entries = .ok out →
      ∀ {w : Value}, entries.find? key = some w → w.isAbsent = false →
        ∃ t, obs (hint.part key) w = .ok t ∧ out.entries.find? key = some t
  | (name, v) :: entries, f, out, hd, h, w, hw, hpresent => by
      obtain ⟨hname, hd⟩ := Entries.distinct_cons_iff.1 hd
      rw [observeFields] at h
      rw [Entries.find?_cons] at hw
      by_cases hk : name = key
      · subst hk
        rw [if_pos rfl] at hw
        obtain rfl : v = w := Option.some.inj hw
        rw [hpresent, if_neg Bool.false_ne_true] at h
        obtain ⟨t, ht, h⟩ := Step.bind_eq_ok.1 h
        split at h
        · rename_i f₁ hf₁
          refine ⟨t, ht, ?_⟩
          -- no later entry has the name
          have hrest : ∀ e ∈ entries, e.1 = name → e.2.isAbsent = true := by
            intro e he hk
            have hmem : e.1 ∈ Entries.names entries := List.mem_map_of_mem he
            exact absurd (hk ▸ hmem) (Entries.find?_eq_none_iff.1 hname)
          rw [find?_observeFields_absent hkey hrest h, find?_store hkey hf₁, if_pos rfl]
        · cases h
      · rw [if_neg hk] at hw
        split at h
        · exact find?_observeFields hkey hd h hw hpresent
        · obtain ⟨u, _, h⟩ := Step.bind_eq_ok.1 h
          split at h
          · exact find?_observeFields hkey hd h hw hpresent
          · cases h

/-- A field is what is observed of the entry of its name, if that is present. -/
theorem find?_observeFields_iff {obs : Hint → Value → Except Fault TypeSpec} {hint : Hint}
    {entries : Entries Value} {out : Filling TypeSpec} (hd : entries.Distinct) {name : String}
    (hname : name ≠ ancestorName) (hout : observeFields obs hint {} entries = .ok out)
    {t : TypeSpec} : out.entries.find? name = some t ↔
      (valueAt entries name).isAbsent = false ∧
        obs (hint.part name) (valueAt entries name) = .ok t := by
  cases hpresent : (valueAt entries name).isAbsent with
  | true =>
      have habsent : ∀ e ∈ entries, e.1 = name → e.2.isAbsent = true := by
        rintro e he rfl
        rwa [valueAt_of_find? (hd.find?_of_mem he)] at hpresent
      rw [find?_observeFields_absent hname habsent hout]
      constructor
      · intro h
        cases h
      · rintro ⟨h, _⟩
        cases h
  | false =>
      cases hw : entries.find? name with
      | none =>
          rw [valueAt_of_find?_none hw] at hpresent
          cases hpresent
      | some w =>
          rw [valueAt_of_find? hw] at hpresent ⊢
          obtain ⟨u, hu, hfind⟩ := find?_observeFields hname hd hout hw hpresent
          rw [hfind, hu]
          simp

/-! ## 3. Records -/

variable {g : Graph} {v : Value}

/-- What is observed of a plain object under a record has the fields that conform. -/
theorem conforms_field_iff {hint : Hint} {entries : Entries Value} {out : Filling TypeSpec}
    (hd : entries.Distinct) {name : String} {t : TypeSpec} (hname : name ≠ ancestorName)
    (hhint : hint.part name = .type t)
    (hout : observeFields (fun hint w => g.observeAt [] [] hint w) hint {} entries = .ok out) :
    (∃ u, out.entries.find? name = some u ∧ t.isCompatible u = true) ↔
      g.Conforms t (valueAt entries name) := by
  have hfield := fun u => find?_observeFields_iff hd hname hout (t := u)
  rw [hhint] at hfield
  constructor
  · rintro ⟨u, hu, hcompatible⟩
    obtain ⟨hpresent, hobserve⟩ := (hfield u).1 hu
    exact ⟨hpresent, u, hobserve, hcompatible⟩
  · rintro ⟨hpresent, u, hobserve, hcompatible⟩
    exact ⟨u, (hfield u).2 ⟨hpresent, hobserve⟩, hcompatible⟩

theorem not_looksRecord_absent (g : Graph) : g.looksRecord .absent = false := by
  simp [Graph.looksRecord, Graph.observe, Graph.observeAt, leafType]

/-- **A plain object conforms to a record when its fields conform to the types of the record.** -/
theorem conforms_record_iff (hg : g.NamesDistinct) (hv : g.Tame v)
    (hrecord : g.looksRecord v = true) {fs : Schema} {ancestor : Option TypeSpec}
    (hfs : fs.WellFormed) : g.Conforms (.record fs ancestor) v ↔
      ∀ name t, fs.find? name = some t → g.Conforms t (g.fieldAt v name) := by
  obtain ⟨out, hobserve, hout⟩ := observe_record hv hrecord fs ancestor
  have hd := hg.listed hv hrecord
  have hfield : ∀ name t, fs.find? name = some t →
      ((∃ u, out.entries.find? name = some u ∧ t.isCompatible u = true) ↔
        g.Conforms t (g.fieldAt v name)) := by
    intro name t ht
    unfold Graph.fieldAt
    rw [if_pos hrecord]
    exact conforms_field_iff hd (hfs.find? ht).1.2 (Hint.part_fields_record ht) hout
  have hpresent : v.isAbsent = false := by
    cases v with
    | absent =>
        rw [not_looksRecord_absent] at hrecord
        cases hrecord
    | _ => rfl
  constructor
  · rintro ⟨_, u, hu, hcompatible⟩ name t ht
    obtain rfl := Except.ok.inj (hobserve.symm.trans hu)
    obtain ⟨_, _, h, hfields⟩ := TypeSpec.isCompatible_record_iff.1 hcompatible
    obtain ⟨rfl, _⟩ := TypeSpec.record.inj h
    exact (hfield name t ht).1 (hfields (name, t) (Entries.mem_of_find? ht))
  · intro h
    refine ⟨hpresent, _, hobserve, TypeSpec.isCompatible_record_iff.2 ⟨_, _, rfl, ?_⟩⟩
    rintro ⟨name, t⟩ he
    have ht := hfs.distinct.find?_of_mem he
    exact (hfield name t ht).2 (h name t ht)

end SchemaFlow
