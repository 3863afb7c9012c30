import SchemaFlow.Proofs.TypeSpec.Compatibility

/-!
# The parts of a type

The element of a sequence, the values of a mapping and the fields of a record are types again.
Whatever is shown of a type from its parts holds of every type (`part_induction`), and what the
checked constructors promise of a type they promise of its parts.
-/

namespace SchemaFlow

namespace TypeSpec

/-! ## 1. Parts -/

/-- A type stands directly in another. -/
inductive PartOf : TypeSpec → TypeSpec → Prop
  | element (e : TypeSpec) : PartOf e (.sequence e)
  | value (k : ScalarKind) (v : TypeSpec) : PartOf v (.mapping k v)
  | field {fs : List (String × TypeSpec)} (ancestor : Option TypeSpec) {e : String × TypeSpec} :
      e ∈ fs → PartOf e.2 (.record fs ancestor)

theorem partOf_of_find? {fs : Schema} (ancestor : Option TypeSpec) {name : String} {t : TypeSpec}
    (h : fs.find? name = some t) : t.PartOf (.record fs ancestor) :=
  .field ancestor (Entries.mem_of_find? h)

/-- Induction over a type by its parts. -/
@[elab_as_elim]
theorem part_induction {motive : TypeSpec → Prop}
    (h : ∀ t, (∀ s, PartOf s t → motive s) → motive t) (t : TypeSpec) : motive t := by
  induction t using TypeSpec.induction with
  | scalar k => exact h _ fun s hs => by cases hs
  | sequence e ih => exact h _ fun s hs => by cases hs; exact ih
  | array k ds => exact h _ fun s hs => by cases hs
  | mapping k v ih => exact h _ fun s hs => by cases hs; exact ih
  | handle label => exact h _ fun s hs => by cases hs
  | record fs ancestor ih =>
      refine h _ fun s hs => ?_
      cases hs with
      | field _ he => exact ih _ he

theorem WellFormed.part {s t : TypeSpec} (ht : t.WellFormed) (h : s.PartOf t) : s.WellFormed := by
  cases h with
  | element e =>
      cases ht with
      | sequence he => exact he
  | value k v =>
      cases ht with
      | mapping _ hv => exact hv
  | field ancestor he => exact ht.fields.types _ he

/-! ## 2. Types without ancestors -/

/-- No record in a type, at any depth, names an ancestor. -/
inductive Ancestorless : TypeSpec → Prop
  | scalar (k : ScalarKind) : Ancestorless (.scalar k)
  | sequence {e : TypeSpec} : Ancestorless e → Ancestorless (.sequence e)
  | array (k : ScalarKind) (ds : List Dimension) : Ancestorless (.array k ds)
  | mapping (k : ScalarKind) {v : TypeSpec} : Ancestorless v → Ancestorless (.mapping k v)
  | handle (label : String) : Ancestorless (.handle label)
  | record {fs : List (String × TypeSpec)} :
      (∀ e ∈ fs, Ancestorless e.2) → Ancestorless (.record fs none)

theorem Ancestorless.part {s t : TypeSpec} (ht : t.Ancestorless) (h : s.PartOf t) :
    s.Ancestorless := by
  cases h with
  | element e =>
      cases ht with
      | sequence he => exact he
  | value k v =>
      cases ht with
      | mapping _ hv => exact hv
  | field ancestor he =>
      cases ht with
      | record hfs => exact hfs _ he

theorem Ancestorless.eq_none {fs : Schema} {ancestor : Option TypeSpec}
    (h : (TypeSpec.record fs ancestor).Ancestorless) : ancestor = none := by
  cases h
  rfl

end TypeSpec

end SchemaFlow
