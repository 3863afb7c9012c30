import SchemaFlow.Proofs.TypeSpec.FieldOrder
import SchemaFlow.Proofs.TypeSpec.Parts

/-!
# Compatibility as a partial order

Compatibility is a preorder (`isCompatible_self`, `isCompatible_trans`). What it does not tell apart
are the order of record fields and the ancestors that records name: types that may stand for each
other are the same type otherwise, at every depth.

* `bare`: a type without the ancestors of its records, which no diagnosis looks at
  (`diagnose_bare`);
* `bare_alike`: types that may stand for each other differ in the order of fields only;
* `isCompatible_partialOrder`: the three laws in one.
-/

namespace SchemaFlow

/-! ## 1. Dimensions -/

theorem Dimension.fits_antisymm {a b : Dimension} (hab : a.fits b = true) (hba : b.fits a = true) :
    a = b := by
  cases a with
  | free =>
      cases b with
      | free => rfl
      | fixed m => cases hba
  | fixed n =>
      cases b with
      | free => cases hab
      | fixed m => rw [show n = m by simpa [Dimension.fits] using hab]

theorem dimensionsFit_antisymm : ∀ {ds es : List Dimension},
    dimensionsFit ds es = true → dimensionsFit es ds = true → ds = es
  | [], [], _, _ => rfl
  | [], _ :: _, h, _ => by simp [dimensionsFit] at h
  | _ :: _, [], h, _ => by simp [dimensionsFit] at h
  | d :: ds, e :: es, hde, hed => by
      simp only [dimensionsFit, Bool.and_eq_true] at hde hed
      rw [Dimension.fits_antisymm hde.1 hed.1, dimensionsFit_antisymm hde.2 hed.2]

namespace TypeSpec

/-! ## 2. Types without the ancestors of their records -/

mutual

/-- A type without the ancestors of its records, at every depth. -/
def bare : TypeSpec → TypeSpec
  | scalar k => scalar k
  | sequence e => sequence e.bare
  | array k ds => array k ds
  | mapping k v => mapping k v.bare
  | handle label => handle label
  | record fs _ => record (bareFields fs) none

/-- Fields whose types name no ancestors. -/
def bareFields : List (String × TypeSpec) → List (String × TypeSpec)
  | [] => []
  | (name, t) :: fs => (name, t.bare) :: bareFields fs

end

theorem find?_bareFields (name : String) (fs : List (String × TypeSpec)) :
    Entries.find? (bareFields fs) name = (Entries.find? fs name).map bare := by
  induction fs with
  | nil =>
      rw [bareFields]
      rfl
  | cons e fs ih =>
      rw [bareFields, Entries.find?_cons, Entries.find?_cons, ih]
      split <;> rfl

mutual

/-- A type that names no ancestors is bare. -/
theorem Ancestorless.bare_eq : ∀ {t : TypeSpec}, t.Ancestorless → t.bare = t
  | .scalar _, _ => rfl
  | .sequence e, h => by
      cases h with
      | sequence he => rw [bare, he.bare_eq]
  | .array _ _, _ => rfl
  | .mapping k v, h => by
      cases h with
      | mapping _ hv => rw [bare, hv.bare_eq]
  | .handle _, _ => rfl
  | .record fs _, h => by
      cases h with
      | record hfs => rw [bare, bareFields_eq hfs]

theorem bareFields_eq : ∀ {fs : List (String × TypeSpec)}, (∀ e ∈ fs, e.2.Ancestorless) →
    bareFields fs = fs
  | [], _ => by rw [bareFields]
  | (name, t) :: fs, h => by
      obtain ⟨ht, hfs⟩ := List.forall_mem_cons.1 h
      have ht : t.bare = t := ht.bare_eq
      rw [bareFields, ht, bareFields_eq hfs]

end

mutual

/-- **No diagnosis looks at ancestors.** -/
theorem diagnose_bare : ∀ d o : TypeSpec, d.bare.diagnose o.bare = d.diagnose o
  | .scalar k, o => by cases o <;> simp [bare, diagnose]
  | .sequence e, o => by
      cases o with
      | sequence f => simp only [bare, diagnose, diagnose_bare e f]
      | _ => simp [bare, diagnose]
  | .array k ds, o => by cases o <;> simp [bare, diagnose]
  | .mapping k v, o => by
      cases o with
      | mapping l w => simp only [bare, diagnose, diagnose_bare v w]
      | _ => simp [bare, diagnose]
  | .handle label, o => by cases o <;> simp [bare, diagnose]
  | .record ds _, o => by
      cases o with
      | record os _ => simp only [bare, diagnose, diagnoseFields_bare ds os]
      | _ => simp [bare, diagnose]

theorem diagnoseFields_bare : ∀ ds os : List (String × TypeSpec),
    diagnoseFields (bareFields ds) (bareFields os) = diagnoseFields ds os
  | [], _ => by rw [bareFields, diagnoseFields, diagnoseFields]
  | (name, t) :: ds, os => by
      rw [bareFields, diagnoseFields, diagnoseFields, find?_bareFields, diagnoseFields_bare ds os]
      cases Entries.find? os name with
      | none => rfl
      | some u => simp only [Option.map_some, diagnose_bare t u]

end

/-! ## 3. Types that may stand for each other -/

/-- **Types that may stand for each other differ in the order of fields only.** -/
theorem bare_alike (a : TypeSpec) : ∀ {b : TypeSpec},
    a.isCompatible b = true → b.isCompatible a = true → a.bare.Alike b.bare := by
  induction a using TypeSpec.induction with
  | scalar k =>
      intro b hab _
      obtain rfl := isCompatible_scalar_iff.1 hab
      exact Alike.refl _
  | sequence e ih =>
      intro b hab hba
      obtain ⟨f, rfl, hef⟩ := isCompatible_sequence_iff.1 hab
      obtain ⟨_, he, hfe⟩ := isCompatible_sequence_iff.1 hba
      obtain rfl := TypeSpec.sequence.inj he
      rw [bare, bare]
      exact .sequence (ih hef hfe)
  | array k ds =>
      intro b hab hba
      obtain ⟨es, rfl, hde⟩ := isCompatible_array_iff.1 hab
      obtain ⟨_, hd, hed⟩ := isCompatible_array_iff.1 hba
      obtain ⟨-, rfl⟩ := TypeSpec.array.inj hd
      rw [dimensionsFit_antisymm hde hed]
      exact Alike.refl _
  | mapping k v ih =>
      intro b hab hba
      obtain ⟨w, rfl, hvw⟩ := isCompatible_mapping_iff.1 hab
      obtain ⟨_, hv, hwv⟩ := isCompatible_mapping_iff.1 hba
      obtain ⟨-, rfl⟩ := TypeSpec.mapping.inj hv
      rw [bare, bare]
      exact .mapping k (ih hvw hwv)
  | handle label =>
      intro b hab _
      obtain rfl := isCompatible_handle_iff.1 hab
      exact Alike.refl _
  | record fs ancestor ih =>
      intro b hab hba
      obtain ⟨gs, other, rfl, hfg⟩ := isCompatible_record_iff.1 hab
      obtain ⟨_, _, hf, hgf⟩ := isCompatible_record_iff.1 hba
      obtain ⟨rfl, -⟩ := TypeSpec.record.inj hf
      have hhas : ∀ name, Entries.has fs name = Entries.has gs name := by
        intro name
        rw [Bool.eq_iff_iff, Entries.has_eq_true_iff, Entries.has_eq_true_iff]
        constructor
        · rintro ⟨t, ht⟩
          obtain ⟨u, hu, _⟩ := hfg (name, t) (Entries.mem_of_find? ht)
          exact ⟨u, hu⟩
        · rintro ⟨u, hu⟩
          obtain ⟨t, ht, _⟩ := hgf (name, u) (Entries.mem_of_find? hu)
          exact ⟨t, ht⟩
      rw [bare, bare]
      refine .record none (fun name => ?_) fun name t' u' ht' hu' => ?_
      · simpa only [Entries.has, find?_bareFields, Option.isSome_map] using hhas name
      · -- the two fields of one name were compared in both directions
        rw [find?_bareFields] at ht' hu'
        obtain ⟨t, ht, rfl⟩ := Option.map_eq_some_iff.1 ht'
        obtain ⟨u, hu, rfl⟩ := Option.map_eq_some_iff.1 hu'
        obtain ⟨u₁, hu₁, htu⟩ := hfg (name, t) (Entries.mem_of_find? ht)
        obtain ⟨t₁, ht₁, hut⟩ := hgf (name, u) (Entries.mem_of_find? hu)
        obtain rfl : u₁ = u := Option.some.inj (hu₁.symm.trans hu)
        obtain rfl : t₁ = t := Option.some.inj (ht₁.symm.trans ht)
        exact ih (name, t₁) (Entries.mem_of_find? ht) htu hut

/-- A well-formed type may stand for every type that differs in the order of fields only. -/
theorem isCompatible_of_bare_alike {a b : TypeSpec} (ha : a.WellFormed)
    (h : a.bare.Alike b.bare) : a.isCompatible b = true := by
  rw [isCompatible_iff, ← diagnose_bare, ← diagnose_alike a.bare h, diagnose_bare,
    ← isCompatible_iff]
  exact isCompatible_self ha

/-- **Compatibility is a partial order on types, up to the order of fields.** -/
theorem isCompatible_partialOrder {a b c : TypeSpec} (ha : a.WellFormed) (hb : b.WellFormed) :
    a.isCompatible a = true ∧
      (a.isCompatible b = true → b.isCompatible c = true → a.isCompatible c = true) ∧
      (a.isCompatible b = true ∧ b.isCompatible a = true ↔ a.bare.Alike b.bare) := by
  refine ⟨isCompatible_self ha, isCompatible_trans a, fun h => bare_alike a h.1 h.2, fun h => ?_⟩
  exact ⟨isCompatible_of_bare_alike ha h, isCompatible_of_bare_alike hb h.symm⟩

/-- A customer with a nested address, and the same fields in another order at both depths. -/
def customerSample (swapped : Bool) : TypeSpec :=
  let address := [("street", .scalar .string), ("at", .array .float [.fixed 2, .free])]
  let fields := [("name", .scalar .string),
    ("homes", .sequence (.record (if swapped then address.reverse else address) none))]
  .record (if swapped then fields.reverse else fields) none

/-- The two orders may stand for each other and for a customer with fewer declared fields, which
    may not stand for them. -/
theorem isCompatible_partialOrder_customer :
    (customerSample false).isCompatible (customerSample true) = true ∧
      (customerSample true).isCompatible (customerSample false) = true ∧
      (customerSample false).Alike (customerSample true) ∧
      (TypeSpec.record [("name", .scalar .string)] none).isCompatible (customerSample true) = true ∧
      (customerSample true).isCompatible (.record [("name", .scalar .string)] none) = false := by
  have hfewer : (TypeSpec.record [("name", .scalar .string)] none).WellFormed := by decide
  have hfirst : (customerSample false).WellFormed := by decide
  have hsecond : (customerSample true).WellFormed := by decide
  have hpair : (customerSample false).isCompatible (customerSample true) = true ∧
      (customerSample true).isCompatible (customerSample false) = true := by decide
  obtain ⟨-, -, horder⟩ :=
    isCompatible_partialOrder (c := customerSample true) hfirst hsecond
  obtain ⟨-, htrans, -⟩ :=
    isCompatible_partialOrder (c := customerSample true) hfewer hfirst
  exact ⟨hpair.1, hpair.2, horder.1 hpair, htrans (by decide) hpair.1, by decide⟩

end TypeSpec

end SchemaFlow
