import SchemaFlow.Proofs.Production.OnData

/-!
# A modification along the paths of a record

A modification is a tree of productions over a tree of fields. What a path of names finds in the
modified record is decided at the place where the path leaves this tree: there the production of the
place is done to what the path finds in the record before (`typeAt_apply`). All that a modification
promises of a path is read off this one equation:

* `Edits`: what is set is found, what is dropped is gone, what is not mentioned is kept, and where
  the path ends at a modification there is a record;
* `decides`: every path meets one of these cases;
* `WellFormed.apply_apply`: done a second time a production changes nothing;
* `edits_applyTo`: all of it for a modification of a record.
-/

namespace SchemaFlow

namespace TypeSpec

/-! ## 1. Paths into a record -/

/-- What a path of names finds, field by field, below a type; nothing where it would have to pass
    through a type that is no record. -/
def typeAt : Option TypeSpec → List String → Option TypeSpec
  | o, [] => o
  | some (.record fs _), name :: rest => typeAt (Entries.find? fs name) rest
  | _, _ :: _ => none

@[simp] theorem typeAt_nil (o : Option TypeSpec) : typeAt o [] = o := by rw [typeAt]

theorem typeAt_cons (o : Option TypeSpec) (name : String) (rest : List String) :
    typeAt o (name :: rest) = typeAt ((Production.recordFields o).find? name) rest := by
  have hnothing : typeAt none rest = none := by cases rest <;> rfl
  cases o with
  | none => exact hnothing.symm
  | some t =>
      cases t with
      | record fs ancestor => rfl
      | _ => exact hnothing.symm

theorem typeAt_append (o : Option TypeSpec) (way rest : List String) :
    typeAt o (way ++ rest) = typeAt (typeAt o way) rest := by
  induction way generalizing o with
  | nil => rw [List.nil_append, typeAt_nil]
  | cons name way ih => rw [List.cons_append, typeAt_cons, typeAt_cons, ih]

/-- A path goes on in a record only. -/
theorem record_of_typeAt_cons {o : Option TypeSpec} {name : String} {rest : List String}
    {u : TypeSpec} (h : typeAt o (name :: rest) = some u) :
    ∃ fs ancestor, o = some (.record fs ancestor) := by
  cases o with
  | none => cases h
  | some t =>
      cases t with
      | record fs ancestor => exact ⟨fs, ancestor, rfl⟩
      | _ => cases h

/-- Every type that is passed on the way, the first and the last one included, is a record. -/
def RecordsAlong (t : TypeSpec) (way : List String) : Prop :=
  ∀ passed, passed <+: way → ∃ fs ancestor, typeAt (some t) passed = some (.record fs ancestor)

/-- Behind a way on which not every type is a record nothing is found. -/
theorem typeAt_of_not_recordsAlong {t : TypeSpec} {way : List String} (h : ¬ t.RecordsAlong way)
    (name : String) (rest : List String) : typeAt (some t) (way ++ name :: rest) = none := by
  by_contra hsome
  obtain ⟨u, hu⟩ := Option.ne_none_iff_exists'.1 hsome
  refine h fun passed hpassed => ?_
  obtain ⟨more, rfl⟩ := hpassed
  rw [List.append_assoc, typeAt_append] at hu
  cases more with
  | nil => exact record_of_typeAt_cons hu
  | cons next more => exact record_of_typeAt_cons hu

end TypeSpec

namespace Production

open TypeSpec (typeAt typeAt_nil typeAt_cons RecordsAlong typeAt_of_not_recordsAlong)

/-! ## 2. Paths into a modification -/

/-- What is done at the end of a path of names, field by field, by a production; nothing where a
    modification does not mention the next name, or where there is no modification to go into. -/
def productionAt : Option Production → List String → Option Production
  | o, [] => o
  | some (.modify fields), name :: rest => productionAt (Entries.find? fields name) rest
  | _, _ :: _ => none

theorem productionAt_none (path : List String) : productionAt none path = none := by
  cases path <;> rfl

/-- A path goes on in a modification that mentions its next name. -/
theorem productionAt_cons_eq_some {p q : Production} {name : String} {way : List String}
    (h : productionAt (some p) (name :: way) = some q) :
    ∃ (fields : Produced) (sub : Production), p = .modify fields ∧
      fields.find? name = some sub ∧ productionAt (some sub) way = some q := by
  cases p with
  | modify fields =>
      rw [productionAt] at h
      cases hsub : Entries.find? fields name with
      | none =>
          rw [hsub, productionAt_none] at h
          cases h
      | some sub =>
          rw [hsub] at h
          exact ⟨fields, sub, rfl, hsub, h⟩
  | _ => cases h

theorem wellFormed_of_productionAt {way : List String} {p q : Production} (hp : p.WellFormed)
    (hq : productionAt (some p) way = some q) : q.WellFormed := by
  induction way generalizing p with
  | nil =>
      obtain rfl := Option.some.inj hq
      exact hp
  | cons name way ih =>
      obtain ⟨fields, sub, rfl, hsub, hq⟩ := productionAt_cons_eq_some hq
      exact ih (hp.fields.find? hsub).2 hq

/-- **A production is done at every place of its own**, to what the way there finds before. -/
theorem typeAt_apply {way : List String} {p q : Production} (hp : p.WellFormed)
    (hq : productionAt (some p) way = some q) (current : Option TypeSpec) (rest : List String) :
    typeAt (p.apply current) (way ++ rest) = typeAt (q.apply (typeAt current way)) rest := by
  induction way generalizing p current with
  | nil =>
      obtain rfl := Option.some.inj hq
      rw [List.nil_append, typeAt_nil]
  | cons name way ih =>
      obtain ⟨fields, sub, rfl, hsub, hq⟩ := productionAt_cons_eq_some hq
      -- the field of the name is what its own production makes of the field before
      have hfield := find?_applyFields_some hp.fields.distinct hsub (recordFields current)
      rw [apply, List.cons_append, typeAt, hfield, typeAt_cons current]
      exact ih (hp.fields.find? hsub).2 hq _

/-- **A modification keeps what it does not mention.** -/
theorem typeAt_apply_unmentioned {fields : Produced} (hd : fields.Distinct) {name : String}
    (hname : fields.find? name = none) (current : Option TypeSpec) (rest : List String) :
    typeAt ((modify fields).apply current) (name :: rest) = typeAt current (name :: rest) := by
  rw [apply, typeAt, find?_applyFields_none hd hname, typeAt_cons current]

/-! ## 3. What is decided of a path -/

/-- What a production makes of one type into another, path by path. -/
structure Edits (p : Production) (before after : TypeSpec) : Prop where
  /-- Below a place that is set, the type that is set is found. -/
  given : ∀ way t, productionAt (some p) way = some (.type t) ∨
    productionAt (some p) way = some (.set t) →
      ∀ rest, typeAt (some after) (way ++ rest) = typeAt (some t) rest
  /-- Below a place that is dropped nothing is found. -/
  dropped : ∀ way, productionAt (some p) way = some .drop →
    ∀ rest, typeAt (some after) (way ++ rest) = none
  /-- Below a name that is not mentioned all is as before, if there were records all the way. -/
  kept : ∀ way fields name, productionAt (some p) way = some (.modify fields) →
    Entries.find? fields name = none → before.RecordsAlong way →
      ∀ rest, typeAt (some after) (way ++ name :: rest) = typeAt (some before) (way ++ name :: rest)
  /-- If not, a modification on the way started from nothing. -/
  fresh : ∀ way fields name, productionAt (some p) way = some (.modify fields) →
    Entries.find? fields name = none → ¬ before.RecordsAlong way →
      ∀ rest, typeAt (some after) (way ++ name :: rest) = none
  /-- Where a modification is, there is a record. -/
  record : ∀ way fields, productionAt (some p) way = some (.modify fields) →
    ∃ fs, typeAt (some after) way = some (.record fs none)

/-- The places where a path may leave a production. -/
inductive Decides : Production → List String → Prop
  | given {p : Production} {t : TypeSpec} (way rest : List String) :
      productionAt (some p) way = some (.type t) ∨ productionAt (some p) way = some (.set t) →
      Decides p (way ++ rest)
  | dropped {p : Production} (way rest : List String) :
      productionAt (some p) way = some .drop → Decides p (way ++ rest)
  | unmentioned {p : Production} {fields : Produced} {name : String} (way rest : List String) :
      productionAt (some p) way = some (.modify fields) → Entries.find? fields name = none →
      Decides p (way ++ name :: rest)
  | modified {p : Production} {fields : Produced} {way : List String} :
      productionAt (some p) way = some (.modify fields) → Decides p way

/-- A path that leaves the production of a field leaves the modification there. -/
theorem Decides.below {fields : Produced} {name : String} {p : Production} {path : List String}
    (hp : fields.find? name = some p) (h : p.Decides path) :
    (Production.modify fields).Decides (name :: path) := by
  have hbelow : ∀ way, productionAt (some (.modify fields)) (name :: way) =
      productionAt (some p) way := by
    intro way
    rw [productionAt, hp]
  cases h with
  | given way rest hq =>
      rw [← hbelow way] at hq
      exact .given (name :: way) rest hq
  | dropped way rest hq =>
      rw [← hbelow way] at hq
      exact .dropped (name :: way) rest hq
  | unmentioned way rest hq hname =>
      rw [← hbelow way] at hq
      exact .unmentioned (name :: way) rest hq hname
  | modified hq =>
      rw [← hbelow path] at hq
      exact .modified hq

/-- **Every path is decided.** -/
theorem decides (p : Production) (path : List String) : p.Decides path := by
  induction path generalizing p with
  | nil =>
      cases p with
      | type t => exact .given [] [] (.inl rfl)
      | set t => exact .given [] [] (.inr rfl)
      | drop => exact .dropped [] [] rfl
      | modify fields => exact .modified rfl
  | cons name rest ih =>
      cases p with
      | type t => exact .given [] _ (.inl rfl)
      | set t => exact .given [] _ (.inr rfl)
      | drop => exact .dropped [] _ rfl
      | modify fields =>
          cases hsub : Entries.find? fields name with
          | none => exact .unmentioned [] rest rfl hsub
          | some sub => exact (ih sub).below hsub

/-- **A production edits the paths that it mentions.** -/
theorem edits_of_apply {p : Production} (hp : p.WellFormed) {before after : TypeSpec}
    (h : p.apply (some before) = some after) : p.Edits before after := by
  -- below a name that is not mentioned the production changes nothing
  have hkept : ∀ way fields name, productionAt (some p) way = some (.modify fields) →
      Entries.find? fields name = none → ∀ rest,
        typeAt (some after) (way ++ name :: rest) = typeAt (some before) (way ++ name :: rest) := by
    intro way fields name hq hname rest
    have hfields := (wellFormed_of_productionAt hp hq).fields
    rw [← h, typeAt_apply hp hq, typeAt_apply_unmentioned hfields.distinct hname,
      TypeSpec.typeAt_append]
  constructor
  · intro way t hq rest
    rw [← h]
    obtain hq | hq := hq
    · rw [typeAt_apply hp hq, apply]
    · rw [typeAt_apply hp hq, apply]
  · intro way hq rest
    rw [← h, typeAt_apply hp hq, apply]
    cases rest <;> rfl
  · exact fun way fields name hq hname _ => hkept way fields name hq hname
  · intro way fields name hq hname hrecords rest
    rw [hkept way fields name hq hname, typeAt_of_not_recordsAlong hrecords]
  · intro way fields hq
    have hfound := typeAt_apply hp hq (some before) []
    rw [List.append_nil, h, typeAt_nil, apply] at hfound
    exact ⟨_, hfound⟩

/-! ## 4. A second time -/

/-- Storing what a name has already, if it has anything, changes nothing. -/
theorem stored_self {fs : Schema} (hd : fs.Distinct) (name : String) :
    stored fs name (fs.find? name) = fs := by
  cases h : Entries.find? fs name with
  | none => exact Entries.erase_of_find?_none h
  | some t => exact Entries.Distinct.insert_of_find? hd h

/-- A modification whose productions leave the fields of their names changes nothing. -/
theorem applyFields_of_fixed {fields : Produced} {fs : Schema} (hd : fs.Distinct)
    (h : ∀ e ∈ fields, e.2.apply (fs.find? e.1) = fs.find? e.1) : applyFields fields fs = fs := by
  induction fields with
  | nil => rw [applyFields]
  | cons e fields ih =>
      obtain ⟨he, hfields⟩ := List.forall_mem_cons.1 h
      rw [applyFields_cons, he, stored_self hd]
      exact ih hfields

/-- **Done a second time, a production changes nothing**, not even the order of fields. -/
theorem WellFormed.apply_apply {p : Production} (hp : p.WellFormed) {current : Option TypeSpec}
    (hc : ∀ t, current = some t → t.WellFormed) :
    p.apply (p.apply current) = p.apply current := by
  induction hp generalizing current with
  | type _ => rfl
  | set _ => rfl
  | drop => rfl
  | @modify fields hd hproper hw ih =>
      have hfs : Schema.WellFormed (recordFields current) := wellFormed_recordFields hc
      have hafter := wellFormed_applyFields ⟨hd, hproper, hw⟩ hfs
      have hfixed : applyFields fields (applyFields fields (recordFields current)) =
          applyFields fields (recordFields current) := by
        refine applyFields_of_fixed hafter.distinct fun e he => ?_
        rw [find?_applyFields_some hd (Entries.Distinct.find?_of_mem hd he)]
        exact ih e he fun t ht => (hfs.find? ht).2
      exact congrArg (fun fs => some (TypeSpec.record fs none)) hfixed

/-! ## 5. A modification of a record -/

/-- **A modification edits the paths of a record that it mentions, and no other.** It gives a type
    again; every path into this type is decided by the modification, as `Edits` says; and the
    modification done to this type gives the type itself. -/
theorem edits_applyTo (g : Graph) {fields : Produced} (hm : (modify fields).WellFormed) {fs : Schema}
    {ancestor : Option TypeSpec} (hr : (TypeSpec.record fs ancestor).WellFormed) :
    ∃ after : TypeSpec,
      (modify fields).applyTo g (.type (.record fs ancestor)) = .ok (some after) ∧
      (modify fields).Edits (.record fs ancestor) after ∧
      (∀ path, (modify fields).Decides path) ∧
      (modify fields).applyTo g (.type after) = .ok (some after) := by
  have happly : ∀ t, (modify fields).applyTo g (.type t) = .ok ((modify fields).apply (some t)) := by
    intro t
    rw [applyTo_eq (g.readable_type t), g.standsFor_type]
  have hagain : (modify fields).apply ((modify fields).apply (some (.record fs ancestor))) =
      (modify fields).apply (some (.record fs ancestor)) :=
    hm.apply_apply fun t ht => Option.some.inj ht ▸ hr
  refine ⟨_, happly _, edits_of_apply hm rfl, decides _, ?_⟩
  exact (happly _).trans (congrArg Except.ok hagain)

/-! ## 6. An account under review -/

/-- An account with a home; its contact is no record. -/
def accountSample : Schema :=
  [("id", .scalar .string), ("contact", .scalar .string),
    ("home", .record [("city", .scalar .string), ("zip", .scalar .string)] none)]

/-- Drops the key, adds a risk, starts the contact anew and edits the home. -/
def accountReview : Produced :=
  [("id", .drop), ("risk", .set (.record [("score", .scalar .float)] none)),
    ("contact", .modify [("mail", .type (.scalar .string))]), ("home", .modify [("zip", .drop)])]

/-- One path for each way to be decided: into a type that is set, to a key that is dropped, past a
    record to a field that is not mentioned, the same past what is no record, and to a
    modification. -/
theorem edits_applyTo_account :
    (modify accountReview).WellFormed ∧ (TypeSpec.record accountSample none).WellFormed ∧
      ∃ after : TypeSpec,
        (modify accountReview).applyTo ⟨#[]⟩ (.type (.record accountSample none)) =
          .ok (some after) ∧
        typeAt (some after) ["risk", "score"] = some (.scalar .float) ∧
        typeAt (some after) ["id"] = none ∧
        typeAt (some after) ["home", "city"] = some (.scalar .string) ∧
        typeAt (some after) ["contact", "phone"] = none ∧
        (∃ fs, typeAt (some after) ["contact"] = some (.record fs none)) ∧
        (modify accountReview).applyTo ⟨#[]⟩ (.type after) = .ok (some after) := by
  have hm : (modify accountReview).WellFormed := by decide
  have hr : (TypeSpec.record accountSample none).WellFormed := by decide
  obtain ⟨after, hafter, hedits, -, hagain⟩ := edits_applyTo ⟨#[]⟩ hm hr
  have hhome : (TypeSpec.record accountSample none).RecordsAlong ["home"] := by
    intro passed hpassed
    rcases List.prefix_cons_iff.1 hpassed with rfl | ⟨rest, rfl, hrest⟩
    · exact ⟨_, _, rfl⟩
    · obtain rfl := List.prefix_nil.1 hrest
      exact ⟨_, _, rfl⟩
  have hcontact : ¬ (TypeSpec.record accountSample none).RecordsAlong ["contact"] := by
    intro hrecords
    obtain ⟨fs, ancestor, h⟩ := hrecords ["contact"] (List.prefix_refl _)
    cases h
  refine ⟨hm, hr, after, hafter, ?_, ?_, ?_, ?_, ?_, hagain⟩
  · exact hedits.given ["risk"] _ (.inr rfl) ["score"]
  · exact hedits.dropped ["id"] rfl []
  · exact hedits.kept ["home"] _ "city" rfl rfl hhome []
  · exact hedits.fresh ["contact"] _ "phone" rfl rfl hcontact []
  · exact hedits.record ["contact"] _ rfl

end Production

end SchemaFlow
