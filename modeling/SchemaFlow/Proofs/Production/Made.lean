import SchemaFlow.Proofs.Contract.Revalidation
import SchemaFlow.Proofs.Production.Composition

/-!
# Types and productions that were made

A modification starts from the fields of a record and leaves a record behind, so what it leaves is as
orderly as what it starts from. A type is settled when the fields of a record are, as deep as
modifications reach; a production is made when it is settled and the types in it are. Applying
productions and composing them keep both.

* `Made.apply`: what a production leaves of a settled type is settled.
* `Made.compose`: the composition of two productions that were made could have been made too.
-/

namespace SchemaFlow

/-! ## 1. Settled types -/

/-- What the making of records promises of a type, as deep as modifications reach. -/
inductive TypeSpec.Settled : TypeSpec → Prop
  | scalar (k : ScalarKind) : Settled (.scalar k)
  | sequence (e : TypeSpec) : Settled (.sequence e)
  | array (k : ScalarKind) (ds : List Dimension) : Settled (.array k ds)
  | mapping (k : ScalarKind) (v : TypeSpec) : Settled (.mapping k v)
  | handle (label : String) : Settled (.handle label)
  | record {fs : List (String × TypeSpec)} (ancestor : Option TypeSpec) :
      Entries.Settled fs → (∀ e ∈ fs, Settled e.2) → Settled (.record fs ancestor)

/-- What the making of records promises of their fields. -/
abbrev Schema.Settled (fs : Schema) : Prop := Entries.SettledOf TypeSpec.Settled fs

namespace TypeSpec

theorem settled_record {fs : Schema} (h : fs.Settled) : (record fs none).Settled :=
  .record none h.table h.contents

end TypeSpec

namespace Production

theorem settled_recordFields {current : Option TypeSpec}
    (hc : ∀ t, current = some t → t.Settled) : Schema.Settled (recordFields current) := by
  cases current with
  | none => exact .nil
  | some t =>
      cases hc t rfl with
      | record ancestor hfs htypes => exact ⟨hfs, htypes⟩
      | _ => exact .nil

theorem settled_stored {fs : Schema} (h : fs.Settled) {name : String} (hn : ProperName name)
    {o : Option TypeSpec} (ho : ∀ t, o = some t → t.Settled) :
    Schema.Settled (stored fs name o) := by
  cases o with
  | none => exact h.erase name
  | some t => exact h.insert hn (ho t rfl)

end Production

/-! ## 2. Productions that were made -/

namespace Production

/-- A production as it can be made: settled, and so are the types in it. -/
inductive Made : Production → Prop
  | type {t : TypeSpec} : t.Settled → Made (.type t)
  | set {t : TypeSpec} : t.Settled → Made (.set t)
  | drop : Made .drop
  | modify {fields : List (String × Production)} :
      Entries.Settled fields → (∀ e ∈ fields, Made e.2) → Made (.modify fields)

end Production

/-- Productions by name that were made. -/
abbrev Produced.Made (ps : Produced) : Prop := Entries.SettledOf Production.Made ps

namespace Production

theorem made_modify {fields : Produced} (h : fields.Made) : (Production.modify fields).Made :=
  .modify h.table h.contents

theorem Made.fields {fields : Produced} (h : (Production.modify fields).Made) : fields.Made := by
  cases h with
  | modify htable hfields => exact ⟨htable, hfields⟩

theorem Made.settled {p : Production} (h : p.Made) : p.Settled := by
  induction h with
  | type _ => exact .type _
  | set _ => exact .set _
  | drop => exact .drop
  | modify htable _ ih => exact .modify htable ih

/-! ## 3. Effect -/

/-- Fields that are edited one by one stay settled. -/
theorem settled_applyFields_of {fields : Produced} (hproper : ∀ e ∈ fields, ProperName e.1)
    (happly : ∀ e ∈ fields, ∀ current : Option TypeSpec, (∀ t, current = some t → t.Settled) →
      ∀ t, e.2.apply current = some t → t.Settled)
    {fs : Schema} (hfs : fs.Settled) : Schema.Settled (applyFields fields fs) := by
  induction fields generalizing fs with
  | nil => exact hfs
  | cons e fields ih =>
      obtain ⟨hname, hproper⟩ := List.forall_mem_cons.1 hproper
      obtain ⟨hfirst, hrest⟩ := List.forall_mem_cons.1 happly
      rw [applyFields_cons e.1 e.2]
      exact ih hproper hrest (settled_stored hfs hname (hfirst _ fun _ => hfs.find?))

/-- **What a production leaves of a settled type is settled.** -/
theorem Made.apply {p : Production} (hp : p.Made) {current : Option TypeSpec}
    (hc : ∀ t, current = some t → t.Settled) : ∀ t, p.apply current = some t → t.Settled := by
  induction hp generalizing current with
  | type ht =>
      intro t h
      obtain rfl := Option.some.inj h
      exact ht
  | set ht =>
      intro t h
      obtain rfl := Option.some.inj h
      exact ht
  | drop =>
      intro t h
      cases h
  | modify htable _ ih =>
      intro t h
      obtain rfl := Option.some.inj h
      exact TypeSpec.settled_record (settled_applyFields_of htable.proper
        (fun e he _ hc => ih e he hc) (settled_recordFields hc))

theorem settled_applyFields {fields : Produced} (h : fields.Made) {fs : Schema} (hfs : fs.Settled) :
    Schema.Settled (applyFields fields fs) :=
  settled_applyFields_of h.table.proper (fun e he _ hc => (h.contents e he).apply hc) hfs

/-! ## 4. Composition -/

/-- **The composition of two productions that were made could have been made too.** -/
theorem Made.compose {l : Production} (hl : l.Made) {earlier : Option Production}
    (he : ∀ p, earlier = some p → p.Made) : (compose earlier l).Made := by
  induction hl generalizing earlier with
  | type ht => exact .type ht
  | set ht => exact .set ht
  | drop => exact .drop
  | @modify fields htable hfields ih =>
      have hmade : Produced.Made fields := ⟨htable, hfields⟩
      have hset : ∀ current : Option TypeSpec, (∀ t, current = some t → t.Settled) →
          (Production.set (.record (applyFields fields (recordFields current)) none)).Made :=
        fun _ hc => .set (TypeSpec.settled_record
            (settled_applyFields hmade (settled_recordFields hc)))
      cases earlier with
      | none => exact made_modify hmade
      | some e =>
          cases he e rfl with
          | @type t ht => exact hset (some t) fun u hu => Option.some.inj hu ▸ ht
          | @set t ht => exact hset (some t) fun u hu => Option.some.inj hu ▸ ht
          | drop => exact hset none fun u hu => by cases hu
          | @modify before htable' hfields' =>
              have hbegun : Produced.Made before := ⟨htable', hfields'⟩
              refine made_modify (composeFields_induction ?_ hbegun)
              exact fun e he _ hbefore =>
                hbefore.insert (htable.proper e he) (ih e he fun _ hp => hbefore.find? hp)

theorem made_composeFields {fields before : Produced} (hf : fields.Made) (hb : before.Made) :
    Produced.Made (composeFields fields before) := by
  have hcomposed : (compose (some (.modify before)) (.modify fields)).Made :=
    (made_modify hf).compose fun _ hp => Option.some.inj hp ▸ made_modify hb
  exact hcomposed.fields

end Production

/-! ## 5. Tables of types -/

/-- A table of settled types, whatever the order of its names. -/
def SettledTypes (table : Entries TypeSpec) : Prop :=
  ∀ name t, table.find? name = some t → t.Settled

namespace SettledTypes

variable {table : Entries TypeSpec}

theorem nil : SettledTypes [] := fun _ _ h => by cases h

theorem put (h : SettledTypes table) (name : String) {t : TypeSpec} (ht : t.Settled) :
    SettledTypes (table.put name t) := by
  intro other u hu
  rw [Entries.find?_put] at hu
  split at hu
  · exact Option.some.inj hu ▸ ht
  · exact h other u hu

theorem erase (h : SettledTypes table) (name : String) : SettledTypes (table.erase name) := by
  intro other u hu
  rw [Entries.find?_erase] at hu
  split at hu
  · cases hu
  · exact h other u hu

/-- Productions that were made leave settled types in a table. -/
theorem applyAll : ∀ {ps : Produced}, (∀ e ∈ ps, e.2.Made) → ∀ {table : Entries TypeSpec},
    SettledTypes table → SettledTypes (applyAll ps table)
  | [], _, _, h => h
  | (name, p) :: ps, hmade, table, h => by
      obtain ⟨hp, hrest⟩ := List.forall_mem_cons.1 hmade
      rw [SchemaFlow.applyAll]
      cases ht : p.apply (table.find? name) with
      | none => exact SettledTypes.applyAll hrest (h.erase name)
      | some t => exact SettledTypes.applyAll hrest (h.put name (hp.apply (h name) t ht))

end SettledTypes

end SchemaFlow
