import SchemaFlow.Proofs.Production.Apply

/-!
# Productions on refined types

A production does not lose what is known: where one type may stand for another, the same holds of
what a production leaves of the two (`WellFormed.apply_refines`). A modification asks even less,
because the fields that it sets or drops need not be alike at all (`modify_refines`).
-/

namespace SchemaFlow

/-- What is known to be there is there, and may stand for it. -/
def Refines (known shown : Option TypeSpec) : Prop :=
  ∀ t, known = some t → ∃ u, shown = some u ∧ t.isCompatible u = true

theorem Refines.none (shown : Option TypeSpec) : Refines none shown := fun _ h => by cases h

theorem refines_some_iff {t u : TypeSpec} :
    Refines (some t) (some u) ↔ t.isCompatible u = true := by
  simp [Refines]

theorem Refines.refl {o : Option TypeSpec} (h : ∀ t, o = some t → t.WellFormed) : Refines o o :=
  fun t ht => ⟨t, ht, TypeSpec.isCompatible_self (h t ht)⟩

namespace Production

/-! ## 1. Fields -/

/-- **Fields are refined with the record that has them.** -/
theorem recordFields_refines {known shown : Option TypeSpec} (h : Refines known shown)
    (name : String) : Refines ((recordFields known).find? name) ((recordFields shown).find? name) := by
  cases known with
  | none => exact .none _
  | some t =>
      cases t with
      | record fs ancestor =>
          obtain ⟨u, rfl, hu⟩ := h _ rfl
          obtain ⟨gs, other, rfl, hfields⟩ := TypeSpec.isCompatible_record_iff.1 hu
          intro t ht
          exact hfields (name, t) (Entries.mem_of_find? ht)
      | _ => exact .none _

/-- Whether a modification sets or drops a field. -/
def Overwrites (fields : Produced) (name : String) : Prop :=
  ∃ p, fields.find? name = some p ∧ ∀ sub, p ≠ .modify sub

/-- A production that is no modification does the same to every type. -/
theorem apply_eq_of_not_modify {p : Production} (hp : ∀ sub, p ≠ .modify sub)
    (c d : Option TypeSpec) : p.apply c = p.apply d := by
  cases p with
  | modify sub => exact absurd rfl (hp sub)
  | _ => rfl

/-- A production takes what is no record for nothing. -/
theorem apply_of_not_record {current : Option TypeSpec}
    (h : ∀ fs ancestor, current ≠ some (.record fs ancestor)) (p : Production) :
    p.apply current = p.apply none := by
  cases p with
  | modify fields =>
      have hnone : recordFields current = recordFields none := by
        cases current with
        | none => rfl
        | some t =>
            cases t with
            | record fs ancestor => exact absurd rfl (h fs ancestor)
            | _ => rfl
      rw [Production.apply, Production.apply, hnone]
  | _ => rfl

theorem record_refines {fs gs : Schema} (hd : fs.Distinct)
    (h : ∀ name, Refines (fs.find? name) (gs.find? name)) :
    Refines (some (.record fs none)) (some (.record gs none)) := by
  refine refines_some_iff.2 (TypeSpec.isCompatible_record_iff.2 ⟨gs, none, rfl, fun e he => ?_⟩)
  exact h e.1 e.2 (hd.find?_of_mem he)

/-! ## 2. Productions -/

/-- **What is known is kept by a production.** -/
theorem WellFormed.apply_refines {p : Production} (hp : p.WellFormed) :
    ∀ {known shown : Option TypeSpec}, (∀ t, known = some t → t.WellFormed) →
      Refines known shown → Refines (p.apply known) (p.apply shown) := by
  induction hp with
  | type ht => exact fun _ _ => refines_some_iff.2 (TypeSpec.isCompatible_self ht)
  | set ht => exact fun _ _ => refines_some_iff.2 (TypeSpec.isCompatible_self ht)
  | drop => exact fun _ _ => .none _
  | @modify fields hd hproper hw ih =>
      intro known shown hknown h
      have hfs := wellFormed_recordFields hknown
      refine record_refines (wellFormed_applyFields ⟨hd, hproper, hw⟩ hfs).distinct fun name => ?_
      have hfield := recordFields_refines h name
      cases hp : Entries.find? fields name with
      | none =>
          rw [find?_applyFields_none hd hp, find?_applyFields_none hd hp]
          exact hfield
      | some p =>
          rw [find?_applyFields_some hd hp, find?_applyFields_some hd hp]
          exact ih (name, p) (Entries.mem_of_find? hp) (fun t ht => (hfs.find? ht).2) hfield

/-- **A modification keeps what is known of the fields that it neither sets nor drops.** -/
theorem modify_refines {fields : Produced} (hp : (Production.modify fields).WellFormed)
    {known shown : Option TypeSpec} (hknown : ∀ t, known = some t → t.WellFormed)
    (h : ∀ name, ¬ Overwrites fields name →
      Refines ((recordFields known).find? name) ((recordFields shown).find? name)) :
    Refines ((Production.modify fields).apply known) ((Production.modify fields).apply shown) := by
  have hfs := wellFormed_recordFields hknown
  have hd := hp.fields.distinct
  refine record_refines (wellFormed_applyFields hp.fields hfs).distinct fun name => ?_
  cases hq : Entries.find? fields name with
  | none =>
      rw [find?_applyFields_none hd hq, find?_applyFields_none hd hq]
      refine h name ?_
      rintro ⟨p, hp, _⟩
      rw [hq] at hp
      cases hp
  | some q =>
      have hqw := (hp.fields.find? hq).2
      have hfield : ∀ t, (recordFields known).find? name = some t → t.WellFormed :=
        fun t ht => (hfs.find? ht).2
      rw [find?_applyFields_some hd hq, find?_applyFields_some hd hq]
      by_cases hmodify : ∃ sub, q = .modify sub
      · obtain ⟨sub, rfl⟩ := hmodify
        refine hqw.apply_refines hfield (h name ?_)
        rintro ⟨p, hp, hne⟩
        obtain rfl := Option.some.inj (hq.symm.trans hp)
        exact hne sub rfl
      · have hsame := apply_eq_of_not_modify (fun sub e => hmodify ⟨sub, e⟩)
          ((recordFields shown).find? name) ((recordFields known).find? name)
        rw [hsame]
        exact .refl (hqw.apply hfield)

end Production

end SchemaFlow
