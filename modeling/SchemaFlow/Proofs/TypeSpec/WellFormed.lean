import SchemaFlow.Proofs.Entries.Distinct
import SchemaFlow.Production.Basic
import SchemaFlow.Text.Blank

/-!
# Well-formed types and productions

What the checked constructors promise of a type, at every depth: the names of a record's fields are
distinct, none is empty and none is the name of the ancestor; fixed dimensions are positive; labels
are not blank. The same of a production and the fields that it modifies.

* `TypeSpec.induction`, `Production.induction`: induction over a type and over a production, with
  the hypothesis for every field.
* `TypeSpec.isWellFormed_iff`, `Production.isWellFormed_iff`: both are decidable.
-/

namespace SchemaFlow

/-- A name that an entry of a checked table can have. -/
def ProperName (name : String) : Prop := name ≠ "" ∧ name ≠ ancestorName

instance (name : String) : Decidable (ProperName name) :=
  inferInstanceAs (Decidable (_ ∧ _))

/-! ## 1. Induction over types and productions -/

namespace TypeSpec

/-- Induction over a type; a record has the hypothesis for each of its fields. -/
@[elab_as_elim]
theorem induction {motive : TypeSpec → Prop}
    (scalar : ∀ k, motive (.scalar k))
    (sequence : ∀ e, motive e → motive (.sequence e))
    (array : ∀ k ds, motive (.array k ds))
    (mapping : ∀ k v, motive v → motive (.mapping k v))
    (handle : ∀ label, motive (.handle label))
    (record : ∀ fs ancestor, (∀ e ∈ fs, motive e.2) → motive (.record fs ancestor))
    (t : TypeSpec) : motive t :=
  @TypeSpec.rec motive (fun fs => ∀ e ∈ fs, motive e.2) (fun _ => True) (fun e => motive e.2)
    scalar sequence array mapping handle (fun fs ancestor hfs _ => record fs ancestor hfs)
    (fun _ h => absurd h List.not_mem_nil)
    (fun _ _ he hrest => List.forall_mem_cons.2 ⟨he, hrest⟩)
    trivial (fun _ _ => trivial) (fun _ _ ht => ht) t

/-! ## 2. Well-formed types -/

/-- What the checked constructors promise of a type. -/
inductive WellFormed : TypeSpec → Prop
  | scalar (k : ScalarKind) : WellFormed (.scalar k)
  | sequence {e : TypeSpec} : WellFormed e → WellFormed (.sequence e)
  | array (k : ScalarKind) {ds : List Dimension} :
      (∀ n, .fixed n ∈ ds → 0 < n) → WellFormed (.array k ds)
  | mapping (k : ScalarKind) {v : TypeSpec} : WellFormed v → WellFormed (.mapping k v)
  | handle {label : String} : Text.isBlankText label = false → WellFormed (.handle label)
  | record {fs : List (String × TypeSpec)} {ancestor : Option TypeSpec} :
      Entries.Distinct fs → (∀ e ∈ fs, ProperName e.1) → (∀ e ∈ fs, WellFormed e.2) →
      (∀ t, ancestor = some t → WellFormed t) → WellFormed (.record fs ancestor)

end TypeSpec

/-- What the checked constructors promise of a schema. -/
structure Schema.WellFormed (s : Schema) : Prop where
  distinct : s.Distinct
  proper : ∀ e ∈ s, ProperName e.1
  types : ∀ e ∈ s, e.2.WellFormed

theorem Schema.WellFormed.nil : Schema.WellFormed [] :=
  ⟨Entries.distinct_nil, fun _ h => absurd h List.not_mem_nil, fun _ h => absurd h List.not_mem_nil⟩

namespace TypeSpec

theorem wellFormed_record_iff {fs : Schema} :
    (TypeSpec.record fs none).WellFormed ↔ fs.WellFormed := by
  constructor
  · intro h
    cases h with
    | record hd hp ht _ => exact ⟨hd, hp, ht⟩
  · intro h
    exact .record h.distinct h.proper h.types fun _ ht => by cases ht

theorem WellFormed.fields {fs : Schema} {ancestor : Option TypeSpec}
    (h : (TypeSpec.record fs ancestor).WellFormed) : fs.WellFormed := by
  cases h with
  | record hd hp ht _ => exact ⟨hd, hp, ht⟩

end TypeSpec

theorem Schema.WellFormed.find? {s : Schema} (hs : s.WellFormed) {name : String} {t : TypeSpec}
    (h : s.find? name = some t) : ProperName name ∧ t.WellFormed :=
  ⟨hs.proper _ (Entries.mem_of_find? h), hs.types _ (Entries.mem_of_find? h)⟩

theorem Schema.WellFormed.insert {s : Schema} (hs : s.WellFormed) {name : String} {t : TypeSpec}
    (hn : ProperName name) (ht : t.WellFormed) : Schema.WellFormed (s.insert name t) where
  distinct := hs.distinct.insert name t
  proper e he := by
    rcases Entries.mem_insert he with h | rfl
    · exact hs.proper e h
    · exact hn
  types e he := by
    rcases Entries.mem_insert he with h | rfl
    · exact hs.types e h
    · exact ht

theorem Schema.WellFormed.erase {s : Schema} (hs : s.WellFormed) (name : String) :
    Schema.WellFormed (s.erase name) where
  distinct := hs.distinct.erase name
  proper e he := hs.proper e (Entries.mem_erase he)
  types e he := hs.types e (Entries.mem_erase he)

/-! ## 3. Well-formed productions -/

namespace Production

/-- Induction over a production; a modification has the hypothesis for each of its fields. -/
@[elab_as_elim]
theorem induction {motive : Production → Prop}
    (type : ∀ t, motive (.type t))
    (set : ∀ t, motive (.set t))
    (drop : motive .drop)
    (modify : ∀ fields, (∀ e ∈ fields, motive e.2) → motive (.modify fields))
    (p : Production) : motive p :=
  @Production.rec motive (fun fields => ∀ e ∈ fields, motive e.2) (fun e => motive e.2)
    type set drop modify
    (fun _ h => absurd h List.not_mem_nil)
    (fun _ _ he hrest => List.forall_mem_cons.2 ⟨he, hrest⟩)
    (fun _ _ hp => hp) p

/-- What the checked constructors promise of a production. -/
inductive WellFormed : Production → Prop
  | type {t : TypeSpec} : t.WellFormed → WellFormed (.type t)
  | set {t : TypeSpec} : t.WellFormed → WellFormed (.set t)
  | drop : WellFormed .drop
  | modify {fields : List (String × Production)} :
      Entries.Distinct fields → (∀ e ∈ fields, ProperName e.1) → (∀ e ∈ fields, WellFormed e.2) →
      WellFormed (.modify fields)

end Production

/-- What the checked constructors promise of the productions of a stage. -/
structure Produced.WellFormed (ps : Produced) : Prop where
  distinct : ps.Distinct
  proper : ∀ e ∈ ps, ProperName e.1
  productions : ∀ e ∈ ps, e.2.WellFormed

theorem Produced.WellFormed.nil : Produced.WellFormed [] :=
  ⟨Entries.distinct_nil, fun _ h => absurd h List.not_mem_nil, fun _ h => absurd h List.not_mem_nil⟩

theorem Produced.WellFormed.find? {ps : Produced} (hps : ps.WellFormed) {name : String}
    {p : Production} (h : ps.find? name = some p) : ProperName name ∧ p.WellFormed :=
  ⟨hps.proper _ (Entries.mem_of_find? h), hps.productions _ (Entries.mem_of_find? h)⟩

theorem Produced.WellFormed.insert {ps : Produced} (hps : ps.WellFormed) {name : String}
    {p : Production} (hn : ProperName name) (hp : p.WellFormed) :
    Produced.WellFormed (ps.insert name p) where
  distinct := hps.distinct.insert name p
  proper e he := by
    rcases Entries.mem_insert he with h | rfl
    · exact hps.proper e h
    · exact hn
  productions e he := by
    rcases Entries.mem_insert he with h | rfl
    · exact hps.productions e h
    · exact hp

namespace Production

theorem WellFormed.fields {fields : Produced} (h : (Production.modify fields).WellFormed) :
    fields.WellFormed := by
  cases h with
  | modify hd hp hw => exact ⟨hd, hp, hw⟩

theorem wellFormed_modify_iff {fields : Produced} :
    (Production.modify fields).WellFormed ↔ fields.WellFormed :=
  ⟨WellFormed.fields, fun h => .modify h.distinct h.proper h.productions⟩

end Production

/-! ## 4. Well-formedness computed -/

mutual

/-- Whether a type is well-formed. -/
def TypeSpec.isWellFormed : TypeSpec → Bool
  | .scalar _ => true
  | .sequence e => isWellFormed e
  | .array _ ds => ds.all fun d => d ≠ .fixed 0
  | .mapping _ v => isWellFormed v
  | .handle label => !Text.isBlankText label
  | .record fs none => decide (Entries.Distinct fs) && fieldsWellFormed fs
  | .record fs (some a) => decide (Entries.Distinct fs) && fieldsWellFormed fs && isWellFormed a

/-- Whether fields have proper names and well-formed types. -/
def TypeSpec.fieldsWellFormed : List (String × TypeSpec) → Bool
  | [] => true
  | (name, t) :: rest => decide (ProperName name) && isWellFormed t && fieldsWellFormed rest

end

mutual

theorem TypeSpec.isWellFormed_iff : ∀ t : TypeSpec, t.isWellFormed = true ↔ t.WellFormed
  | .scalar k => by
      simp only [isWellFormed, true_iff]
      exact .scalar k
  | .sequence e => by
      rw [isWellFormed, isWellFormed_iff e]
      exact ⟨.sequence, fun h => by cases h with | sequence he => exact he⟩
  | .array k ds => by
      rw [isWellFormed, List.all_eq_true]
      constructor
      · intro h
        refine .array k fun n hn => Nat.pos_of_ne_zero ?_
        rintro rfl
        exact absurd rfl (of_decide_eq_true (h _ hn))
      · intro h d hd
        cases h with
        | array _ hpos =>
            refine decide_eq_true ?_
            rintro rfl
            exact absurd (hpos 0 hd) (Nat.lt_irrefl 0)
  | .mapping k v => by
      rw [isWellFormed, isWellFormed_iff v]
      exact ⟨.mapping k, fun h => by cases h with | mapping _ hv => exact hv⟩
  | .handle label => by
      rw [isWellFormed, Bool.not_eq_true']
      exact ⟨.handle, fun h => by cases h with | handle hl => exact hl⟩
  | .record fs none => by
      rw [isWellFormed, Bool.and_eq_true, decide_eq_true_eq, fieldsWellFormed_iff fs]
      constructor
      · rintro ⟨hd, hp, ht⟩
        exact .record hd hp ht fun _ h => by cases h
      · intro h
        cases h with
        | record hd hp ht _ => exact ⟨hd, hp, ht⟩
  | .record fs (some a) => by
      rw [isWellFormed, Bool.and_eq_true, Bool.and_eq_true, decide_eq_true_eq,
        fieldsWellFormed_iff fs, isWellFormed_iff a]
      constructor
      · rintro ⟨⟨hd, hp, ht⟩, ha⟩
        exact .record hd hp ht fun _ h => by cases h; exact ha
      · intro h
        cases h with
        | record hd hp ht ha => exact ⟨⟨hd, hp, ht⟩, ha a rfl⟩

theorem TypeSpec.fieldsWellFormed_iff : ∀ fs : List (String × TypeSpec),
    fieldsWellFormed fs = true ↔ (∀ e ∈ fs, ProperName e.1) ∧ ∀ e ∈ fs, e.2.WellFormed
  | [] => by simp [fieldsWellFormed]
  | (name, t) :: rest => by
      rw [fieldsWellFormed, Bool.and_eq_true, Bool.and_eq_true, decide_eq_true_eq,
        isWellFormed_iff t, fieldsWellFormed_iff rest, List.forall_mem_cons, List.forall_mem_cons]
      exact ⟨fun h => ⟨⟨h.1.1, h.2.1⟩, h.1.2, h.2.2⟩, fun h => ⟨⟨h.1.1, h.2.1⟩, h.1.2, h.2.2⟩⟩

end

instance (t : TypeSpec) : Decidable t.WellFormed :=
  decidable_of_iff _ (TypeSpec.isWellFormed_iff t)

instance (s : Schema) : Decidable s.WellFormed :=
  decidable_of_iff (s.Distinct ∧ (∀ e ∈ s, ProperName e.1) ∧ ∀ e ∈ s, e.2.WellFormed)
    ⟨fun h => ⟨h.1, h.2.1, h.2.2⟩, fun h => ⟨h.distinct, h.proper, h.types⟩⟩

mutual

/-- Whether a production is well-formed. -/
def Production.isWellFormed : Production → Bool
  | .type t => t.isWellFormed
  | .set t => t.isWellFormed
  | .drop => true
  | .modify fields => decide (Entries.Distinct fields) && fieldsWellFormed fields

/-- Whether fields have proper names and well-formed productions. -/
def Production.fieldsWellFormed : List (String × Production) → Bool
  | [] => true
  | (name, p) :: rest => decide (ProperName name) && isWellFormed p && fieldsWellFormed rest

end

mutual

theorem Production.isWellFormed_iff : ∀ p : Production, p.isWellFormed = true ↔ p.WellFormed
  | .type t => by
      rw [isWellFormed, TypeSpec.isWellFormed_iff]
      exact ⟨.type, fun h => by cases h with | type ht => exact ht⟩
  | .set t => by
      rw [isWellFormed, TypeSpec.isWellFormed_iff]
      exact ⟨.set, fun h => by cases h with | set ht => exact ht⟩
  | .drop => by
      simp only [isWellFormed, true_iff]
      exact .drop
  | .modify fields => by
      rw [isWellFormed, Bool.and_eq_true, decide_eq_true_eq, fieldsWellFormed_iff fields]
      constructor
      · rintro ⟨hd, hp, hw⟩
        exact .modify hd hp hw
      · intro h
        cases h with
        | modify hd hp hw => exact ⟨hd, hp, hw⟩

theorem Production.fieldsWellFormed_iff : ∀ fields : List (String × Production),
    fieldsWellFormed fields = true ↔
      (∀ e ∈ fields, ProperName e.1) ∧ ∀ e ∈ fields, e.2.WellFormed
  | [] => by simp [fieldsWellFormed]
  | (name, p) :: rest => by
      rw [fieldsWellFormed, Bool.and_eq_true, Bool.and_eq_true, decide_eq_true_eq,
        isWellFormed_iff p, fieldsWellFormed_iff rest, List.forall_mem_cons, List.forall_mem_cons]
      exact ⟨fun h => ⟨⟨h.1.1, h.2.1⟩, h.1.2, h.2.2⟩, fun h => ⟨⟨h.1.1, h.2.1⟩, h.1.2, h.2.2⟩⟩

end

instance (p : Production) : Decidable p.WellFormed :=
  decidable_of_iff _ (Production.isWellFormed_iff p)

instance (ps : Produced) : Decidable ps.WellFormed :=
  decidable_of_iff (ps.Distinct ∧ (∀ e ∈ ps, ProperName e.1) ∧ ∀ e ∈ ps, e.2.WellFormed)
    ⟨fun h => ⟨h.1, h.2.1, h.2.2⟩, fun h => ⟨h.distinct, h.proper, h.productions⟩⟩

end SchemaFlow
