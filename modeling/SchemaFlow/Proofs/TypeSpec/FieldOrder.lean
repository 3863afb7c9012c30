import SchemaFlow.Proofs.Entries.Agreement
import SchemaFlow.Proofs.TypeSpec.Compatibility

/-!
# Types and productions up to the order of fields

Two types are alike when they differ in the order of record fields only, at any depth; likewise two
productions, in the order of the fields that they set or modify. No diagnosis tells the observed
types apart that are alike (`diagnose_alike`).
-/

namespace SchemaFlow

namespace TypeSpec

/-! ## 1. Types -/

/-- Two types that differ in the order of record fields only. -/
inductive Alike : TypeSpec → TypeSpec → Prop
  | scalar (k : ScalarKind) : Alike (.scalar k) (.scalar k)
  | sequence {e f : TypeSpec} : Alike e f → Alike (.sequence e) (.sequence f)
  | array (k : ScalarKind) (ds : List Dimension) : Alike (.array k ds) (.array k ds)
  | mapping (k : ScalarKind) {v w : TypeSpec} : Alike v w → Alike (.mapping k v) (.mapping k w)
  | handle (label : String) : Alike (.handle label) (.handle label)
  | record {fs gs : List (String × TypeSpec)} (ancestor : Option TypeSpec) :
      (∀ name, Entries.has fs name = Entries.has gs name) →
      (∀ name t u, Entries.find? fs name = some t → Entries.find? gs name = some u → Alike t u) →
      Alike (.record fs ancestor) (.record gs ancestor)

/-- The fields of two records agree when the records are alike. -/
theorem Alike.agree {fs gs : Schema} {a b : Option TypeSpec}
    (h : Alike (.record fs a) (.record gs b)) : fs.Agree Alike gs := by
  cases h with
  | record _ hhas hfields => exact Entries.agree_iff.2 ⟨hhas, hfields⟩

theorem Alike.of_agree {fs gs : Schema} (ancestor : Option TypeSpec) (h : fs.Agree Alike gs) :
    Alike (.record fs ancestor) (.record gs ancestor) :=
  .record ancestor (Entries.agree_iff.1 h).1 (Entries.agree_iff.1 h).2

theorem Alike.refl (t : TypeSpec) : Alike t t := by
  induction t using TypeSpec.induction with
  | scalar k => exact .scalar k
  | sequence e ih => exact .sequence ih
  | array k ds => exact .array k ds
  | mapping k v ih => exact .mapping k ih
  | handle label => exact .handle label
  | record fs ancestor ih =>
      refine .record ancestor (fun _ => rfl) (fun name t u ht hu => ?_)
      obtain rfl : t = u := Option.some.inj (ht.symm.trans hu)
      exact ih (name, t) (Entries.mem_of_find? ht)

theorem Alike.symm {t u : TypeSpec} (h : Alike t u) : Alike u t := by
  induction h with
  | scalar k => exact .scalar k
  | sequence _ ih => exact .sequence ih
  | array k ds => exact .array k ds
  | mapping k _ ih => exact .mapping k ih
  | handle label => exact .handle label
  | record ancestor hhas _ ih =>
      exact .record ancestor (fun name => (hhas name).symm) fun name t u ht hu => ih name u t hu ht

theorem Alike.trans {t u v : TypeSpec} (h : Alike t u) : Alike u v → Alike t v := by
  induction h generalizing v with
  | scalar k => exact id
  | sequence _ ih =>
      intro h
      cases h with
      | sequence hfg => exact .sequence (ih hfg)
  | array k ds => exact id
  | mapping k _ ih =>
      intro h
      cases h with
      | mapping _ hwx => exact .mapping k (ih hwx)
  | handle label => exact id
  | @record fs gs ancestor hhas _ ih =>
      intro h
      cases h with
      | @record _ hs _ hhas' hfields =>
          refine .record ancestor (fun name => (hhas name).trans (hhas' name)) ?_
          intro name t v ht hv
          obtain ⟨u, hu⟩ : ∃ u, Entries.find? gs name = some u :=
            Entries.has_eq_true_iff.1 ((hhas name).symm.trans (Entries.has_eq_true_iff.2 ⟨t, ht⟩))
          exact ih name t u ht hu (hfields name u v hu hv)

/-! ## 2. Diagnosis -/

mutual

/-- **Observed types that are alike are diagnosed alike.** -/
theorem diagnose_alike : ∀ (d : TypeSpec) {o o' : TypeSpec}, Alike o o' →
    d.diagnose o = d.diagnose o'
  | .scalar _, _, _, h => by cases h <;> rfl
  | .sequence e, _, _, h => by
      cases h with
      | sequence hff => exact diagnose_alike e hff
      | _ => rfl
  | .array _ _, _, _, h => by cases h <;> rfl
  | .mapping k v, _, _, h => by
      cases h with
      | mapping l hww => rw [diagnose, diagnose, diagnose_alike v hww]
      | _ => rfl
  | .handle _, _, _, h => by cases h <;> rfl
  | .record ds _, _, _, h => by
      cases h with
      | record a hhas hfields =>
          exact diagnoseFields_alike ds (Alike.record a hhas hfields).agree
      | _ => rfl

theorem diagnoseFields_alike : ∀ (ds : List (String × TypeSpec)) {os os' : Schema},
    os.Agree Alike os' → diagnoseFields ds os = diagnoseFields ds os'
  | [], _, _, _ => rfl
  | (name, t) :: ds, os, os', h => by
      rw [diagnoseFields, diagnoseFields, diagnoseFields_alike ds h]
      cases hu : Entries.find? os name with
      | none => rw [h.find?_none hu]
      | some u =>
          obtain ⟨u', hu', huu⟩ := h.find?_some hu
          rw [hu']
          simp only [diagnose_alike t huu]

end

end TypeSpec

/-! ## 3. Productions -/

namespace Production

/-- Two productions that differ in the order of fields only. -/
inductive Alike : Production → Production → Prop
  | type {t u : TypeSpec} : t.Alike u → Alike (.type t) (.type u)
  | set {t u : TypeSpec} : t.Alike u → Alike (.set t) (.set u)
  | drop : Alike .drop .drop
  | modify {fs gs : List (String × Production)} :
      (∀ name, Entries.has fs name = Entries.has gs name) →
      (∀ name p q, Entries.find? fs name = some p → Entries.find? gs name = some q → Alike p q) →
      Alike (.modify fs) (.modify gs)

theorem Alike.agree {fs gs : Produced} (h : Alike (.modify fs) (.modify gs)) :
    fs.Agree Alike gs := by
  cases h with
  | modify hhas hfields => exact Entries.agree_iff.2 ⟨hhas, hfields⟩

theorem Alike.of_agree {fs gs : Produced} (h : fs.Agree Alike gs) :
    Alike (.modify fs) (.modify gs) :=
  .modify (Entries.agree_iff.1 h).1 (Entries.agree_iff.1 h).2

theorem Alike.refl (p : Production) : Alike p p := by
  induction p using Production.induction with
  | type t => exact .type (TypeSpec.Alike.refl t)
  | set t => exact .set (TypeSpec.Alike.refl t)
  | drop => exact .drop
  | modify fields ih =>
      refine .modify (fun _ => rfl) (fun name p q hp hq => ?_)
      obtain rfl : p = q := Option.some.inj (hp.symm.trans hq)
      exact ih (name, p) (Entries.mem_of_find? hp)

theorem Alike.symm {p q : Production} (h : Alike p q) : Alike q p := by
  induction h with
  | type htu => exact .type htu.symm
  | set htu => exact .set htu.symm
  | drop => exact .drop
  | modify hhas _ ih =>
      exact .modify (fun name => (hhas name).symm) fun name p q hp hq => ih name q p hq hp

theorem Alike.trans {p q r : Production} (h : Alike p q) : Alike q r → Alike p r := by
  induction h generalizing r with
  | type htu =>
      intro h
      cases h with
      | type huv => exact .type (htu.trans huv)
  | set htu =>
      intro h
      cases h with
      | set huv => exact .set (htu.trans huv)
  | drop => exact id
  | @modify fs gs hhas _ ih =>
      intro h
      cases h with
      | @modify _ hs hhas' hfields =>
          refine .modify (fun name => (hhas name).trans (hhas' name)) ?_
          intro name p r hp hr
          obtain ⟨q, hq⟩ : ∃ q, Entries.find? gs name = some q :=
            Entries.has_eq_true_iff.1 ((hhas name).symm.trans (Entries.has_eq_true_iff.2 ⟨p, hp⟩))
          exact ih name p q hp hq (hfields name q r hq hr)

end Production

end SchemaFlow
