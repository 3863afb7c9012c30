import SchemaFlow.Proofs.TypeSpec.FieldOrder

/-!
# What a production does to a type

A modification works on each field by itself: the field of a name is what the production of that name
makes of the field that was there, and a name without a production keeps its field
(`find?_applyFields`). All else follows field by field:

* `WellFormed.apply`: a production leaves a well-formed type behind;
* `apply_alike`: alike productions do alike things to alike types.
-/

namespace SchemaFlow

namespace Production

/-! ## 1. Fields -/

/-- Fields in which a name is given a type, or taken out where there is none to give. -/
def stored (fs : Schema) (name : String) : Option TypeSpec → Schema
  | some t => fs.insert name t
  | none => fs.erase name

theorem find?_stored (fs : Schema) (name other : String) (o : Option TypeSpec) :
    Entries.find? (stored fs name o) other = if other = name then o else fs.find? other := by
  cases o with
  | some t => exact Entries.find?_insert fs name other t
  | none => exact Entries.find?_erase name other fs

theorem applyFields_cons (name : String) (p : Production) (fields : Produced) (fs : Schema) :
    applyFields ((name, p) :: fields) fs =
      applyFields fields (stored fs name (p.apply (fs.find? name))) := by
  rw [applyFields]
  cases p.apply (Entries.find? fs name) <;> rfl

/-- **A modification works on each field by itself.** -/
theorem find?_applyFields (name : String) : ∀ {fields : Produced} (fs : Schema), fields.Distinct →
    Entries.find? (applyFields fields fs) name =
      match fields.find? name with
      | some p => p.apply (fs.find? name)
      | none => fs.find? name
  | [], _, _ => by simp [applyFields]
  | (k, p) :: fields, fs, hd => by
      obtain ⟨hk, hd⟩ := Entries.distinct_cons_iff.1 hd
      rw [applyFields_cons, find?_applyFields name _ hd, find?_stored, Entries.find?_cons]
      by_cases hn : k = name
      · subst hn
        simp [hk]
      · have hn' : ¬ name = k := fun e => hn e.symm
        simp [hn, hn']

/-- A record after a modification that has a production for the name. -/
theorem find?_applyFields_some {fields : Produced} (hd : fields.Distinct) {name : String}
    {p : Production} (hp : fields.find? name = some p) (fs : Schema) :
    Entries.find? (applyFields fields fs) name = p.apply (fs.find? name) := by
  rw [find?_applyFields name fs hd, hp]

/-- A record after a modification that does not mention the name. -/
theorem find?_applyFields_none {fields : Produced} (hd : fields.Distinct) {name : String}
    (hp : fields.find? name = none) (fs : Schema) :
    Entries.find? (applyFields fields fs) name = fs.find? name := by
  rw [find?_applyFields name fs hd, hp]

/-! ## 2. Well-formed types stay well-formed -/

theorem wellFormed_recordFields {current : Option TypeSpec}
    (hc : ∀ t, current = some t → t.WellFormed) :
    Schema.WellFormed (recordFields current) := by
  cases current with
  | none => exact .nil
  | some t =>
      cases t with
      | record fs ancestor => exact (hc _ rfl).fields
      | _ => exact .nil

theorem wellFormed_applyFields_of {fields : Produced} (hproper : ∀ e ∈ fields, ProperName e.1)
    (happly : ∀ e ∈ fields, ∀ current : Option TypeSpec,
      (∀ t, current = some t → t.WellFormed) → ∀ t, e.2.apply current = some t → t.WellFormed)
    {fs : Schema} (hfs : fs.WellFormed) : Schema.WellFormed (applyFields fields fs) := by
  induction fields generalizing fs with
  | nil => exact hfs
  | cons e fields ih =>
      rw [applyFields]
      refine ih (fun e he => hproper e (List.mem_cons_of_mem _ he))
        (fun e he => happly e (List.mem_cons_of_mem _ he)) ?_
      cases hnext : e.2.apply (Entries.find? fs e.1) with
      | none => exact hfs.erase e.1
      | some t =>
          refine hfs.insert (hproper e List.mem_cons_self) ?_
          exact happly e List.mem_cons_self _ (fun u hu => (hfs.find? hu).2) t hnext

/-- **A production leaves a well-formed type behind.** -/
theorem WellFormed.apply {p : Production} (hp : p.WellFormed) {current : Option TypeSpec}
    (hc : ∀ t, current = some t → t.WellFormed) : ∀ t, p.apply current = some t → t.WellFormed := by
  induction hp generalizing current with
  | type ht =>
      intro t h
      obtain rfl := Option.some.inj h
      exact ht
  | set ht =>
      intro t h
      obtain rfl := Option.some.inj h
      exact ht
  | drop =>
      intro t h
      cases h
  | modify hd hproper hw ih =>
      intro t h
      obtain rfl := Option.some.inj h
      refine TypeSpec.wellFormed_record_iff.2 ?_
      exact wellFormed_applyFields_of hproper (fun e he _ hc => ih e he hc)
        (wellFormed_recordFields hc)

theorem wellFormed_applyFields {fields : Produced} (h : fields.WellFormed) {fs : Schema}
    (hfs : fs.WellFormed) : Schema.WellFormed (applyFields fields fs) :=
  wellFormed_applyFields_of h.proper (fun e he _ hc => (h.productions e he).apply hc) hfs

/-! ## 3. The order of fields does not matter -/

theorem recordFields_alike {c d : Option TypeSpec} (h : Option.Rel TypeSpec.Alike c d) :
    (recordFields c).Agree TypeSpec.Alike (recordFields d) := by
  cases h with
  | none => exact Entries.Agree.refl TypeSpec.Alike.refl _
  | some htu =>
      cases htu with
      | record ancestor hhas hfields => exact (TypeSpec.Alike.record ancestor hhas hfields).agree
      | _ => exact Entries.Agree.refl TypeSpec.Alike.refl _

/-- **Alike productions do alike things to alike types.** -/
theorem apply_alike {p q : Production} (h : Alike p q) : p.WellFormed → q.WellFormed →
    ∀ {c d : Option TypeSpec}, Option.Rel TypeSpec.Alike c d →
      Option.Rel TypeSpec.Alike (p.apply c) (q.apply d) := by
  induction h with
  | type htu => exact fun _ _ _ _ _ => .some htu
  | set htu => exact fun _ _ _ _ _ => .some htu
  | drop => exact fun _ _ _ _ _ => .none
  | @modify fs gs hhas hfields ih =>
      intro hp hq c d hcd
      refine .some (TypeSpec.Alike.of_agree none fun name => ?_)
      have hrec := recordFields_alike hcd name
      have hagree : Entries.Agree Alike fs gs := Entries.agree_iff.2 ⟨hhas, hfields⟩
      cases hf : Entries.find? fs name with
      | none =>
          rw [find?_applyFields_none hp.fields.distinct hf,
            find?_applyFields_none hq.fields.distinct (hagree.find?_none hf)]
          exact hrec
      | some a =>
          obtain ⟨b, hg, _⟩ := hagree.find?_some hf
          rw [find?_applyFields_some hp.fields.distinct hf,
            find?_applyFields_some hq.fields.distinct hg]
          exact ih name a b hf hg (hp.fields.find? hf).2 (hq.fields.find? hg).2 hrec

/-- Only a drop leaves nothing behind. -/
theorem apply_eq_none_iff {p : Production} {current : Option TypeSpec} :
    p.apply current = none ↔ p = .drop := by
  cases p <;> simp [apply]

end Production

/-! ## 4. Tables of types -/

/-- **The productions of a stage work on each name of a table by itself.** -/
theorem find?_applyAll (key : String) : ∀ {ps : Produced} (table : Entries TypeSpec), ps.Distinct →
    (applyAll ps table).find? key =
      match ps.find? key with
      | some p => p.apply (table.find? key)
      | none => table.find? key
  | [], _, _ => rfl
  | (name, p) :: ps, table, hd => by
      obtain ⟨hname, hd⟩ := Entries.distinct_cons_iff.1 hd
      obtain ⟨next, hnext, hfind⟩ : ∃ next, applyAll ((name, p) :: ps) table = applyAll ps next ∧
          ∀ other, next.find? other =
            if other = name then p.apply (table.find? name) else table.find? other := by
        rw [applyAll]
        cases p.apply (table.find? name) with
        | some t => exact ⟨table.put name t, rfl, fun other => Entries.find?_put table name other t⟩
        | none => exact ⟨table.erase name, rfl, fun other => Entries.find?_erase name other table⟩
      rw [hnext, find?_applyAll key next hd, hfind, Entries.find?_cons]
      by_cases hk : name = key
      · subst hk
        simp only [hname, if_true]
      · have hk' : ¬ key = name := fun e => hk e.symm
        simp only [hk, hk', if_false]

end SchemaFlow
