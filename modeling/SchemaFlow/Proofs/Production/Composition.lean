import SchemaFlow.Proofs.Production.Apply

/-!
# Composing productions

The composition of two productions does what the two do one after the other (`apply_compose`), and
it does not matter how a row of productions is bracketed (`compose_assoc`). Both hold up to the order
of fields: a field that is dropped and set again goes to the end of its record.

Like a modification, the composition of two modifications works on each field by itself
(`find?_composeFields`), and so do the proofs.
-/

namespace SchemaFlow

namespace Production

/-! ## 1. Fields -/

/-- Only a modification looks at what was done before. -/
theorem compose_none (p : Production) : compose none p = p := by
  cases p <;> rfl

/-- **The composition of modifications works on each field by itself.** -/
theorem find?_composeFields (name : String) : ∀ {fields : Produced} (before : Produced),
    fields.Distinct →
      Entries.find? (composeFields fields before) name =
        match fields.find? name with
        | some p => some (compose (before.find? name) p)
        | none => before.find? name
  | [], _, _ => by simp [composeFields]
  | (k, p) :: fields, before, hd => by
      obtain ⟨hk, hd⟩ := Entries.distinct_cons_iff.1 hd
      rw [composeFields, find?_composeFields name _ hd, Entries.find?_insert, Entries.find?_cons]
      by_cases hn : k = name
      · subst hn
        simp [hk, compose]
      · have hn' : ¬ name = k := fun e => hn e.symm
        simp [hn, hn']

theorem find?_composeFields_some {fields : Produced} (hd : fields.Distinct) {name : String}
    {p : Production} (hp : fields.find? name = some p) (before : Produced) :
    Entries.find? (composeFields fields before) name = some (compose (before.find? name) p) := by
  rw [find?_composeFields name before hd, hp]

theorem find?_composeFields_none {fields : Produced} (hd : fields.Distinct) {name : String}
    (hp : fields.find? name = none) (before : Produced) :
    Entries.find? (composeFields fields before) name = before.find? name := by
  rw [find?_composeFields name before hd, hp]

/-! ## 2. Well-formed productions compose -/

/-- **What the insertion of a composed production keeps holds of fields that are composed.** -/
theorem composeFields_induction {P : Produced → Prop} : ∀ {fields before : Produced},
    (∀ e ∈ fields, ∀ before : Produced, P before →
      P (before.insert e.1 (compose (before.find? e.1) e.2))) → P before →
        P (composeFields fields before)
  | [], _, _, hb => hb
  | (name, p) :: fields, before, hinsert, hb => by
      obtain ⟨hp, hfields⟩ := List.forall_mem_cons.1 hinsert
      rw [composeFields]
      exact composeFields_induction hfields (hp before hb)

/-- **Well-formed productions compose to a well-formed one.** -/
theorem WellFormed.compose {l : Production} (hl : l.WellFormed) {before : Option Production}
    (hb : ∀ p, before = some p → p.WellFormed) : (compose before l).WellFormed := by
  induction hl generalizing before with
  | type ht => exact .type ht
  | set ht => exact .set ht
  | drop => exact .drop
  | @modify fields hd hproper hw ih =>
      have hfields : Produced.WellFormed fields := ⟨hd, hproper, hw⟩
      have hset : ∀ {fs : Schema}, fs.WellFormed →
          (Production.set (.record (Production.applyFields fields fs) none)).WellFormed := by
        intro fs hfs
        exact .set (TypeSpec.wellFormed_record_iff.2 (wellFormed_applyFields hfields hfs))
      cases before with
      | none => exact .modify hd hproper hw
      | some e =>
          cases hb e rfl with
          | type ht => exact hset (wellFormed_recordFields fun _ h => by cases h; exact ht)
          | set ht => exact hset (wellFormed_recordFields fun _ h => by cases h; exact ht)
          | drop => exact hset .nil
          | modify hd' hproper' hw' =>
              refine wellFormed_modify_iff.2 (composeFields_induction ?_ ⟨hd', hproper', hw'⟩)
              exact fun e he before hb =>
                hb.insert (hproper e he) (ih e he fun _ hp => (hb.find? hp).2)

theorem wellFormed_composeFields {fields before : Produced} (hf : fields.WellFormed)
    (hb : before.WellFormed) : Produced.WellFormed (composeFields fields before) :=
  composeFields_induction (fun e he _ hb =>
    hb.insert (hf.proper e he) ((hf.productions e he).compose fun _ hp => (hb.find? hp).2)) hb

/-! ## 3. The effect of a composition -/

/-- Two modifications and their composition, if what both mention composes as it should. -/
theorem applyFields_composeFields_of {fields before : Produced} (hf : fields.WellFormed)
    (hb : before.WellFormed)
    (h : ∀ name p q, fields.find? name = some p → before.find? name = some q →
      ∀ c, Option.Rel TypeSpec.Alike (p.apply (q.apply c)) ((compose (some q) p).apply c))
    (fs : Schema) :
    (applyFields fields (applyFields before fs)).Agree TypeSpec.Alike
      (applyFields (composeFields fields before) fs) := by
  intro name
  have hdist := (wellFormed_composeFields hf hb).distinct
  cases hp : fields.find? name with
  | none =>
      rw [find?_applyFields_none hf.distinct hp]
      have hcomp := find?_composeFields_none hf.distinct hp before
      cases hq : before.find? name with
      | none =>
          rw [find?_applyFields_none hb.distinct hq,
            find?_applyFields_none hdist (hcomp.trans hq)]
          exact OptionRel.refl TypeSpec.Alike.refl _
      | some q =>
          rw [find?_applyFields_some hb.distinct hq,
            find?_applyFields_some hdist (hcomp.trans hq)]
          exact OptionRel.refl TypeSpec.Alike.refl _
  | some p =>
      rw [find?_applyFields_some hf.distinct hp,
        find?_applyFields_some hdist (find?_composeFields_some hf.distinct hp before)]
      cases hq : before.find? name with
      | none =>
          rw [find?_applyFields_none hb.distinct hq, compose_none]
          exact OptionRel.refl TypeSpec.Alike.refl _
      | some q =>
          rw [find?_applyFields_some hb.distinct hq]
          exact h name p q hp hq _

/-- **The composition does what the two do one after the other.** -/
theorem apply_compose {l : Production} (hl : l.WellFormed) {e : Production} (he : e.WellFormed)
    (c : Option TypeSpec) :
    Option.Rel TypeSpec.Alike (l.apply (e.apply c)) ((compose (some e) l).apply c) := by
  induction hl generalizing e c with
  | type _ => exact .some (TypeSpec.Alike.refl _)
  | set _ => exact .some (TypeSpec.Alike.refl _)
  | drop => exact .none
  | @modify fields hd hproper hw ih =>
      have hfields : Produced.WellFormed fields := ⟨hd, hproper, hw⟩
      cases he with
      | type _ => exact .some (TypeSpec.Alike.refl _)
      | set _ => exact .some (TypeSpec.Alike.refl _)
      | drop => exact .some (TypeSpec.Alike.refl _)
      | @modify before hd' hproper' hw' =>
          have hbefore : Produced.WellFormed before := ⟨hd', hproper', hw'⟩
          have hstep : ∀ name p q, Entries.find? fields name = some p →
              Entries.find? before name = some q → ∀ c, Option.Rel TypeSpec.Alike
                (p.apply (q.apply c)) ((compose (some q) p).apply c) := fun name p q hp hq c =>
            ih (name, p) (Entries.mem_of_find? hp) (hbefore.find? hq).2 c
          exact .some (TypeSpec.Alike.of_agree none
            (applyFields_composeFields_of hfields hbefore hstep (recordFields c)))

/-- The fields of a record after two modifications, and after their composition. -/
theorem applyFields_composeFields {fields before : Produced} (hf : fields.WellFormed)
    (hb : before.WellFormed) (fs : Schema) :
    (applyFields fields (applyFields before fs)).Agree TypeSpec.Alike
      (applyFields (composeFields fields before) fs) :=
  applyFields_composeFields_of hf hb
    (fun _ _ _ hp hq c => apply_compose (hf.find? hp).2 (hb.find? hq).2 c) fs

/-! ## 4. The order of fields does not matter -/

/-- **Alike productions compose to alike ones.** -/
theorem compose_alike {l m : Production} (h : Alike l m) : l.WellFormed → m.WellFormed →
    ∀ {e f : Option Production}, (∀ p, e = some p → p.WellFormed) →
      (∀ p, f = some p → p.WellFormed) → Option.Rel Alike e f →
      Alike (compose e l) (compose f m) := by
  induction h with
  | type htu => exact fun _ _ _ _ _ _ _ => .type htu
  | set htu => exact fun _ _ _ _ _ _ _ => .set htu
  | drop => exact fun _ _ _ _ _ _ _ => .drop
  | @modify fs gs hhas hfields ih =>
      intro hl hm e f he hf hef
      have hfg : Alike (.modify fs) (.modify gs) := .modify hhas hfields
      have hset : ∀ {hs ks : Schema}, hs.Agree TypeSpec.Alike ks →
          Alike (.set (.record (applyFields fs hs) none))
            (.set (.record (applyFields gs ks) none)) := by
        intro hs ks hhk
        have h := apply_alike hfg hl hm
          (Option.Rel.some (TypeSpec.Alike.of_agree none hhk))
        cases h with
        | some halike => exact .set halike
      cases hef with
      | none => exact hfg
      | some hpq =>
          cases hpq with
          | type htu => exact hset (recordFields_alike (.some htu))
          | set htu => exact hset (recordFields_alike (.some htu))
          | drop => exact hset (Entries.Agree.refl TypeSpec.Alike.refl _)
          | @modify bs cs hhas' hfields' =>
              have hbc : Entries.Agree Alike bs cs := Entries.agree_iff.2 ⟨hhas', hfields'⟩
              have hbs : Produced.WellFormed bs := (he _ rfl).fields
              have hcs : Produced.WellFormed cs := (hf _ rfl).fields
              refine Alike.of_agree fun name => ?_
              cases hp : Entries.find? fs name with
              | none =>
                  rw [find?_composeFields_none hl.fields.distinct hp,
                    find?_composeFields_none hm.fields.distinct (hfg.agree.find?_none hp)]
                  exact hbc name
              | some p =>
                  obtain ⟨q, hq, _⟩ := hfg.agree.find?_some hp
                  rw [find?_composeFields_some hl.fields.distinct hp,
                    find?_composeFields_some hm.fields.distinct hq]
                  exact .some (ih name p q hp hq (hl.fields.find? hp).2 (hm.fields.find? hq).2
                    (fun _ h => (hbs.find? h).2) (fun _ h => (hcs.find? h).2) (hbc name))

/-! ## 5. Bracketing does not matter -/

/-- Three modifications bracketed in two ways, if what all three mention is associative. -/
theorem composeFields_assoc_of {fields middle first : Produced} (hf : fields.WellFormed)
    (hm : middle.WellFormed)
    (h : ∀ name p q, fields.find? name = some p → middle.find? name = some q →
      Alike (compose (some (compose (first.find? name) q)) p)
        (compose (first.find? name) (compose (some q) p))) :
    (composeFields fields (composeFields middle first)).Agree Alike
      (composeFields (composeFields fields middle) first) := by
  intro name
  have hdist := (wellFormed_composeFields hf hm).distinct
  cases hp : fields.find? name with
  | none =>
      rw [find?_composeFields_none hf.distinct hp]
      have hcomp := find?_composeFields_none hf.distinct hp middle
      cases hq : middle.find? name with
      | none =>
          rw [find?_composeFields_none hm.distinct hq,
            find?_composeFields_none hdist (hcomp.trans hq)]
          exact OptionRel.refl Alike.refl _
      | some q =>
          rw [find?_composeFields_some hm.distinct hq,
            find?_composeFields_some hdist (hcomp.trans hq)]
          exact .some (Alike.refl _)
  | some p =>
      rw [find?_composeFields_some hf.distinct hp,
        find?_composeFields_some hdist (find?_composeFields_some hf.distinct hp middle)]
      cases hq : middle.find? name with
      | none =>
          rw [find?_composeFields_none hm.distinct hq, compose_none]
          exact .some (Alike.refl _)
      | some q =>
          rw [find?_composeFields_some hm.distinct hq]
          exact .some (h name p q hp hq)

/-- **Composition is associative.** -/
theorem compose_assoc {l : Production} (hl : l.WellFormed) {e : Option Production}
    {p : Production} (he : ∀ q, e = some q → q.WellFormed) (hp : p.WellFormed) :
    Alike (compose (some (compose e p)) l) (compose e (compose (some p) l)) := by
  induction hl generalizing e p with
  | type _ => exact Alike.refl _
  | set _ => exact Alike.refl _
  | drop => exact Alike.refl _
  | @modify fields hd hproper hw ih =>
      have hfields : Produced.WellFormed fields := ⟨hd, hproper, hw⟩
      cases hp with
      | type _ => exact Alike.refl _
      | set _ => exact Alike.refl _
      | drop => exact Alike.refl _
      | @modify middle hd' hproper' hw' =>
          have hmiddle : Produced.WellFormed middle := ⟨hd', hproper', hw'⟩
          -- where the first production is no modification its result is known, and set
          have hset : ∀ fs : Schema,
              Alike (.set (.record (applyFields fields (applyFields middle fs)) none))
                (.set (.record (applyFields (composeFields fields middle) fs) none)) := fun fs =>
            .set (TypeSpec.Alike.of_agree none (applyFields_composeFields hfields hmiddle fs))
          cases e with
          | none => exact Alike.refl _
          | some q =>
              cases he q rfl with
              | type _ => exact hset _
              | set _ => exact hset _
              | drop => exact hset _
              | @modify first hd'' hproper'' hw'' =>
                  have hfirst : Produced.WellFormed first := ⟨hd'', hproper'', hw''⟩
                  refine Alike.of_agree (composeFields_assoc_of hfields hmiddle ?_)
                  intro name p q hp hq
                  exact ih (name, p) (Entries.mem_of_find? hp) (fun _ h => (hfirst.find? h).2)
                    (hmiddle.find? hq).2

/-! ## 6. Rows of productions -/

end Production

/-- Productions of two stages that differ in the order of names and fields only. -/
abbrev SameProduced (ps qs : Produced) : Prop := ps.Agree Production.Alike qs

theorem SameProduced.refl (ps : Produced) : SameProduced ps ps :=
  Entries.Agree.refl Production.Alike.refl ps

theorem SameProduced.symm {ps qs : Produced} (h : SameProduced ps qs) : SameProduced qs ps :=
  Entries.Agree.symm (fun _ _ hpq => Production.Alike.symm hpq) h

theorem SameProduced.trans {ps qs rs : Produced} (h : SameProduced ps qs)
    (h' : SameProduced qs rs) : SameProduced ps rs := by
  have htrans : ∀ p q r : Production, p.Alike q → q.Alike r → p.Alike r :=
    fun _ _ _ => Production.Alike.trans
  exact Entries.Agree.trans htrans h h'

namespace Production

theorem composeFields_assoc {fields middle first : Produced} (hf : fields.WellFormed)
    (hm : middle.WellFormed) (hb : first.WellFormed) :
    SameProduced (composeFields fields (composeFields middle first))
      (composeFields (composeFields fields middle) first) :=
  composeFields_assoc_of hf hm fun _ _ _ hp hq =>
    compose_assoc (hf.find? hp).2 (fun _ h => (hb.find? h).2) (hm.find? hq).2

theorem composeFields_agree {fs gs bs cs : Produced} (hf : fs.WellFormed) (hg : gs.WellFormed)
    (hb : bs.WellFormed) (hc : cs.WellFormed) (hfg : SameProduced fs gs) (hbc : SameProduced bs cs) :
    SameProduced (composeFields fs bs) (composeFields gs cs) := by
  have hsome : ∀ {fields : Produced}, fields.WellFormed →
      ∀ p, some (Production.modify fields) = some p → p.WellFormed := by
    rintro fields h _ ⟨⟩
    exact wellFormed_modify_iff.2 h
  have h := compose_alike (Alike.of_agree hfg) (wellFormed_modify_iff.2 hf)
    (wellFormed_modify_iff.2 hg) (hsome hb) (hsome hc) (.some (Alike.of_agree hbc))
  exact h.agree

/-- Composing onto nothing changes nothing. -/
theorem composeFields_nil {fields : Produced} (hd : fields.Distinct) (name : String) :
    Entries.find? (composeFields fields []) name = fields.find? name := by
  rw [find?_composeFields name [] hd]
  cases fields.find? name with
  | none => rfl
  | some p => exact congrArg some (compose_none p)

end Production

end SchemaFlow
