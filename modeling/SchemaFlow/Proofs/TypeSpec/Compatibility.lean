import SchemaFlow.Proofs.TypeSpec.WellFormed
import SchemaFlow.TypeSpec.Compatibility

/-!
# Compatibility as an order

Compatibility is read off the diagnosis. For records it says that every declared field is there with
a compatible type (`isCompatible_record_iff`), and from this that it is a preorder:

* `isCompatible_self`: a well-formed type may stand for itself;
* `isCompatible_trans`: what may stand for a type may stand for all that the type may stand for.
-/

namespace SchemaFlow

/-! ## 1. Dimensions -/

theorem Dimension.fits_self (d : Dimension) : d.fits d = true := by
  cases d with
  | free => rfl
  | fixed n => exact beq_self_eq_true n

theorem Dimension.fits_trans {a b c : Dimension} (hab : a.fits b = true) (hbc : b.fits c = true) :
    a.fits c = true := by
  cases a with
  | free => rfl
  | fixed n =>
      cases b with
      | free => cases hab
      | fixed m =>
          obtain rfl : n = m := by simpa [Dimension.fits] using hab
          exact hbc

theorem dimensionsFit_self : ∀ ds : List Dimension, dimensionsFit ds ds = true
  | [] => rfl
  | d :: ds => by simp [dimensionsFit, Dimension.fits_self d, dimensionsFit_self ds]

theorem dimensionsFit_trans : ∀ {as bs cs : List Dimension},
    dimensionsFit as bs = true → dimensionsFit bs cs = true → dimensionsFit as cs = true
  | [], [], _, _, h => h
  | [], _ :: _, _, h, _ => by simp [dimensionsFit] at h
  | _ :: _, [], _, h, _ => by simp [dimensionsFit] at h
  | _ :: _, _ :: _, [], _, h => by simp [dimensionsFit] at h
  | a :: as, b :: bs, c :: cs, hab, hbc => by
      simp only [dimensionsFit, Bool.and_eq_true] at hab hbc ⊢
      exact ⟨Dimension.fits_trans hab.1 hbc.1, dimensionsFit_trans hab.2 hbc.2⟩

namespace TypeSpec

/-! ## 2. Compatibility, one sort of type after the other -/

theorem isCompatible_iff {d o : TypeSpec} : d.isCompatible o = true ↔ d.diagnose o = none := by
  rw [isCompatible, Option.isNone_iff_eq_none]

/-- Compatible types are of one sort. -/
theorem sortName_of_isCompatible {d o : TypeSpec} (h : d.isCompatible o = true) :
    d.sortName = o.sortName := by
  by_cases hsort : d.sortName = o.sortName
  · exact hsort
  · rw [isCompatible_iff, diagnose_of_sortName_ne hsort] at h
    cases h

theorem isCompatible_scalar_iff {k : ScalarKind} {o : TypeSpec} :
    (TypeSpec.scalar k).isCompatible o = true ↔ o = .scalar k := by
  rw [isCompatible_iff]
  cases o with
  | scalar l =>
      rw [diagnose]
      by_cases hk : k = l
      · simp [hk]
      · simp only [if_neg hk, reduceCtorEq, scalar.injEq, false_iff]
        exact fun e => hk e.symm
  | _ => simp [diagnose]

theorem isCompatible_sequence_iff {e o : TypeSpec} :
    (TypeSpec.sequence e).isCompatible o = true ↔
      ∃ f, o = .sequence f ∧ e.isCompatible f = true := by
  simp only [isCompatible_iff]
  cases o with
  | sequence f => simp [diagnose]
  | _ => simp [diagnose]

theorem isCompatible_array_iff {k : ScalarKind} {ds : List Dimension} {o : TypeSpec} :
    (TypeSpec.array k ds).isCompatible o = true ↔
      ∃ es, o = .array k es ∧ dimensionsFit ds es = true := by
  rw [isCompatible_iff]
  cases o with
  | array l es =>
      rw [diagnose]
      by_cases hk : k = l
      · subst hk
        cases hd : dimensionsFit ds es <;> simp [hd]
      · have hl : ¬ l = k := fun e => hk e.symm
        simp [hk, hl]
  | _ => simp [diagnose]

theorem isCompatible_mapping_iff {k : ScalarKind} {v o : TypeSpec} :
    (TypeSpec.mapping k v).isCompatible o = true ↔
      ∃ w, o = .mapping k w ∧ v.isCompatible w = true := by
  simp only [isCompatible_iff]
  cases o with
  | mapping l w =>
      rw [diagnose]
      by_cases hk : k = l
      · simp [hk]
      · have hl : ¬ l = k := fun e => hk e.symm
        simp [hk, hl]
  | _ => simp [diagnose]

theorem isCompatible_handle_iff {label : String} {o : TypeSpec} :
    (TypeSpec.handle label).isCompatible o = true ↔ o = .handle label := by
  rw [isCompatible_iff]
  cases o with
  | handle other =>
      rw [diagnose]
      by_cases hl : label = other
      · simp [hl]
      · simp only [if_neg hl, reduceCtorEq, handle.injEq, false_iff]
        exact fun e => hl e.symm
  | _ => simp [diagnose]

/-- All declared fields are there with compatible types. -/
theorem diagnoseFields_eq_none_iff {os : Schema} {ds : List (String × TypeSpec)} :
    diagnoseFields ds os = none ↔
      ∀ e ∈ ds, ∃ u, os.find? e.1 = some u ∧ e.2.isCompatible u = true := by
  induction ds with
  | nil => simp [diagnoseFields]
  | cons e ds ih =>
      obtain ⟨name, t⟩ := e
      rw [diagnoseFields, List.forall_mem_cons, ← ih]
      cases ho : os.find? name with
      | none => simp
      | some u =>
          simp only [isCompatible_iff, Option.some.injEq, exists_eq_left']
          cases hm : t.diagnose u <;> simp

/-- **A record is met by a record that has its fields, with compatible types.** -/
theorem isCompatible_record_iff {ds : Schema} {ancestor : Option TypeSpec} {o : TypeSpec} :
    (TypeSpec.record ds ancestor).isCompatible o = true ↔
      ∃ (os : Schema) (other : Option TypeSpec), o = .record os other ∧
        ∀ e ∈ ds, ∃ u, os.find? e.1 = some u ∧ e.2.isCompatible u = true := by
  rw [isCompatible_iff]
  cases o with
  | record os b =>
      rw [diagnose, diagnoseFields_eq_none_iff]
      constructor
      · intro h
        exact ⟨os, b, rfl, h⟩
      · rintro ⟨_, _, h, hf⟩
        cases h
        exact hf
  | _ => simp [diagnose]

/-- Nothing but a sequence is met by a sequence. -/
theorem sequence_of_isCompatible {d f : TypeSpec} (h : d.isCompatible (.sequence f) = true) :
    ∃ e, d = .sequence e ∧ e.isCompatible f = true := by
  cases d with
  | sequence e =>
      obtain ⟨_, hf, hef⟩ := isCompatible_sequence_iff.1 h
      obtain rfl := TypeSpec.sequence.inj hf
      exact ⟨e, rfl, hef⟩
  | _ => exact absurd (sortName_of_isCompatible h) (by simp [sortName])

/-- Nothing but a mapping is met by a mapping. -/
theorem mapping_of_isCompatible {d w : TypeSpec} {k : ScalarKind}
    (h : d.isCompatible (.mapping k w) = true) : ∃ v, d = .mapping k v ∧ v.isCompatible w = true := by
  cases d with
  | mapping l v =>
      obtain ⟨_, hw, hvw⟩ := isCompatible_mapping_iff.1 h
      obtain ⟨rfl, rfl⟩ := TypeSpec.mapping.inj hw
      exact ⟨v, rfl, hvw⟩
  | _ => exact absurd (sortName_of_isCompatible h) (by simp [sortName])

/-- Nothing but a record is met by a record. -/
theorem record_of_isCompatible {d : TypeSpec} {os : Schema} {other : Option TypeSpec}
    (h : d.isCompatible (.record os other) = true) : ∃ ds ancestor, d = .record ds ancestor := by
  cases d with
  | record ds ancestor => exact ⟨ds, ancestor, rfl⟩
  | _ => exact absurd (sortName_of_isCompatible h) (by simp [sortName])

/-! ## 3. The order -/

/-- **A well-formed type may stand for itself.** -/
theorem isCompatible_self {t : TypeSpec} (ht : t.WellFormed) : t.isCompatible t = true := by
  induction ht with
  | scalar k => exact isCompatible_scalar_iff.2 rfl
  | sequence _ ih => exact isCompatible_sequence_iff.2 ⟨_, rfl, ih⟩
  | array k _ => exact isCompatible_array_iff.2 ⟨_, rfl, dimensionsFit_self _⟩
  | mapping k _ ih => exact isCompatible_mapping_iff.2 ⟨_, rfl, ih⟩
  | handle _ => exact isCompatible_handle_iff.2 rfl
  | record hd _ _ _ ih _ =>
      refine isCompatible_record_iff.2 ⟨_, _, rfl, fun e he => ?_⟩
      exact ⟨e.2, hd.find?_of_mem he, ih e he⟩

/-- **Compatibility is transitive.** -/
theorem isCompatible_trans (a : TypeSpec) : ∀ {b c : TypeSpec},
    a.isCompatible b = true → b.isCompatible c = true → a.isCompatible c = true := by
  induction a using TypeSpec.induction with
  | scalar k =>
      intro b c hab hbc
      obtain rfl := isCompatible_scalar_iff.1 hab
      exact hbc
  | sequence e ih =>
      intro b c hab hbc
      obtain ⟨f, rfl, hef⟩ := isCompatible_sequence_iff.1 hab
      obtain ⟨d, rfl, hfd⟩ := isCompatible_sequence_iff.1 hbc
      exact isCompatible_sequence_iff.2 ⟨d, rfl, ih hef hfd⟩
  | array k ds =>
      intro b c hab hbc
      obtain ⟨es, rfl, hde⟩ := isCompatible_array_iff.1 hab
      obtain ⟨fs, rfl, hef⟩ := isCompatible_array_iff.1 hbc
      exact isCompatible_array_iff.2 ⟨fs, rfl, dimensionsFit_trans hde hef⟩
  | mapping k v ih =>
      intro b c hab hbc
      obtain ⟨w, rfl, hvw⟩ := isCompatible_mapping_iff.1 hab
      obtain ⟨x, rfl, hwx⟩ := isCompatible_mapping_iff.1 hbc
      exact isCompatible_mapping_iff.2 ⟨x, rfl, ih hvw hwx⟩
  | handle label =>
      intro b c hab hbc
      obtain rfl := isCompatible_handle_iff.1 hab
      exact hbc
  | record fs ancestor ih =>
      intro b c hab hbc
      obtain ⟨gs, _, rfl, hfg⟩ := isCompatible_record_iff.1 hab
      obtain ⟨hs, _, rfl, hgh⟩ := isCompatible_record_iff.1 hbc
      refine isCompatible_record_iff.2 ⟨hs, _, rfl, fun e he => ?_⟩
      obtain ⟨u, hu, heu⟩ := hfg e he
      obtain ⟨v, hv, huv⟩ := hgh (e.1, u) (Entries.mem_of_find? hu)
      exact ⟨v, hv, ih e he heu huv⟩

end TypeSpec

end SchemaFlow
