import SchemaFlow.Production.Effect
import SchemaFlow.Proofs.Production.Composition

/-!
# Productions on tables of data

To a production a value is no more than the type that it exhibits where any record is expected
(`Graph.standsFor`, `applyTo_eq`). So folding productions into a table of data comes down to applying
them to types, name by name (`effectOn_eq`), and tables that differ in the order of names and of
record fields only are left with the same differences (`effectOn_alike`).
-/

namespace SchemaFlow

/-- The value that a table of data has under a name; absent where it has none. -/
def valueAt (data : Entries Value) (key : String) : Value := (data.find? key).getD .absent

theorem valueAt_of_find? {data : Entries Value} {key : String} {v : Value}
    (h : data.find? key = some v) : valueAt data key = v := by
  rw [valueAt, h, Option.getD_some]

theorem valueAt_of_find?_none {data : Entries Value} {key : String} (h : data.find? key = none) :
    valueAt data key = .absent := by
  rw [valueAt, h, Option.getD_none]

/-! ## 1. What a value stands for -/

namespace Graph

variable (g : Graph)

/-- A value that can be observed where any record is expected. -/
def Readable (v : Value) : Prop := ∃ t, g.observe (some TypeSpec.emptyRecord) v = .ok t

/-- The type that a production takes a value for. -/
def standsFor (v : Value) : Option TypeSpec :=
  if v.isAbsent then none else (g.observe (some TypeSpec.emptyRecord) v).toOption

theorem readable_type (t : TypeSpec) : g.Readable (.type t) := ⟨t, g.observe_type _ t⟩

theorem readable_absent : g.Readable .absent := by
  refine ⟨.handle "undefined", ?_⟩
  simp [observe, observeAt, leafType]

@[simp] theorem standsFor_type (t : TypeSpec) : g.standsFor (.type t) = some t := by
  rw [standsFor, observe_type]
  rfl

/-- What a production takes a value for is what is seen of it where any record is expected. -/
theorem observe_of_standsFor {v : Value} {t : TypeSpec} (h : g.standsFor v = some t) :
    g.observe (some TypeSpec.emptyRecord) v = .ok t := by
  unfold standsFor at h
  split at h
  · cases h
  · cases hseen : g.observe (some TypeSpec.emptyRecord) v with
    | error e =>
        rw [hseen] at h
        cases h
    | ok u =>
        rw [hseen] at h
        obtain rfl : u = t := Option.some.inj h
        rfl

/-- A table whose values can all be observed where any record is expected. -/
def ReadableTable (data : Entries Value) : Prop :=
  ∀ key v, data.find? key = some v → g.Readable v

variable {g}

/-- A modification starts from the fields of what a value stands for. -/
theorem fieldsOf_eq {v : Value} (hv : g.Readable v) :
    g.fieldsOf v = .ok (Production.recordFields (g.standsFor v)) := by
  obtain ⟨t, ht⟩ := hv
  unfold fieldsOf standsFor
  cases v.isAbsent with
  | true => rfl
  | false =>
      rw [ht]
      rfl

theorem ReadableTable.valueAt {data : Entries Value} (h : g.ReadableTable data) (key : String) :
    g.Readable (valueAt data key) := by
  unfold SchemaFlow.valueAt
  cases hv : data.find? key with
  | none => exact g.readable_absent
  | some v => exact h key v hv

end Graph

/-! ## 2. One production -/

/-- **A production takes a value for what it stands for.** -/
theorem Production.applyTo_eq {g : Graph} {v : Value} (hv : g.Readable v) (p : Production) :
    p.applyTo g v = .ok (p.apply (g.standsFor v)) := by
  cases p with
  | type t => rfl
  | set t => rfl
  | drop => rfl
  | modify fields =>
      rw [Production.applyTo, Graph.fieldsOf_eq hv]
      rfl

/-! ## 3. The productions of a stage -/

/-- What a production leaves under a name. -/
def stored? (o : Option TypeSpec) : Option Value := o.map Value.type

theorem effectOn_cons {g : Graph} {name : String} (p : Production) (ps : Produced)
    {data : Entries Value} (hv : g.Readable (valueAt data name)) :
    ∃ next, effectOn g ((name, p) :: ps) data = effectOn g ps next ∧
      ∀ key, next.find? key =
        if key = name then stored? (p.apply (g.standsFor (valueAt data name)))
        else data.find? key := by
  have happly := Production.applyTo_eq hv p
  unfold valueAt at happly
  cases ht : p.apply (g.standsFor (valueAt data name)) with
  | none =>
      refine ⟨data.erase name, ?_, fun key => Entries.find?_erase name key data⟩
      rw [effectOn, happly]
      unfold valueAt at ht
      rw [ht]
      rfl
  | some t =>
      refine ⟨data.put name (.type t), ?_, fun key => Entries.find?_put data name key _⟩
      rw [effectOn, happly]
      unfold valueAt at ht
      rw [ht]
      rfl

/-- **The productions of a stage work on each name by itself.** -/
theorem effectOn_eq {g : Graph} : ∀ {ps : Produced} {data : Entries Value}, ps.Distinct →
    g.ReadableTable data → ∃ next, effectOn g ps data = .ok next ∧
      ∀ key, next.find? key =
        match ps.find? key with
        | some p => stored? (p.apply (g.standsFor (valueAt data key)))
        | none => data.find? key
  | [], data, _, _ => ⟨data, rfl, fun _ => rfl⟩
  | (name, p) :: ps, data, hd, hdata => by
      obtain ⟨hname, hd⟩ := Entries.distinct_cons_iff.1 hd
      obtain ⟨middle, hmiddle, hfind⟩ := effectOn_cons p ps (hdata.valueAt name)
      have hread : g.ReadableTable middle := by
        intro key v hv
        rw [hfind key] at hv
        split at hv
        · unfold stored? at hv
          obtain ⟨t, -, rfl⟩ := Option.map_eq_some_iff.1 hv
          exact g.readable_type t
        · exact hdata key v hv
      obtain ⟨next, hnext, hfind'⟩ := effectOn_eq hd hread
      refine ⟨next, hmiddle.trans hnext, fun key => ?_⟩
      rw [hfind' key, Entries.find?_cons]
      by_cases hk : name = key
      · subst hk
        simp only [hname, if_true, hfind]
      · have hk' : ¬ key = name := fun e => hk e.symm
        simp only [hk, if_false, hfind, hk', valueAt]

/-- What a name has behind a stage. -/
theorem find?_effectOn {g : Graph} {ps : Produced} {data next : Entries Value} (hd : ps.Distinct)
    (hdata : g.ReadableTable data) (h : effectOn g ps data = .ok next) (key : String) :
    next.find? key =
      match ps.find? key with
      | some p => stored? (p.apply (g.standsFor (valueAt data key)))
      | none => data.find? key := by
  obtain ⟨next', hnext', hfind⟩ := effectOn_eq hd hdata
  obtain rfl : next' = next := Except.ok.inj (hnext'.symm.trans h)
  exact hfind key

/-- Behind a stage a name has a type, or what it had before. -/
theorem type_or_kept_of_effectOn {g : Graph} {ps : Produced} {data next : Entries Value}
    (hd : ps.Distinct) (hdata : g.ReadableTable data) (h : effectOn g ps data = .ok next)
    {key : String} {v : Value} (hv : next.find? key = some v) :
    (∃ t, v = .type t) ∨ data.find? key = some v := by
  rw [find?_effectOn hd hdata h key] at hv
  cases hp : ps.find? key with
  | none =>
      rw [hp] at hv
      exact Or.inr hv
  | some p =>
      rw [hp] at hv
      obtain ⟨t, -, rfl⟩ := Option.map_eq_some_iff.1 hv
      exact Or.inl ⟨t, rfl⟩

/-- What a stage leaves behind can be observed again. -/
theorem Graph.ReadableTable.effectOn {g : Graph} {ps : Produced} {data next : Entries Value}
    (hd : ps.Distinct) (h : g.ReadableTable data) (hnext : effectOn g ps data = .ok next) :
    g.ReadableTable next := by
  intro key v hv
  rcases type_or_kept_of_effectOn hd h hnext hv with ⟨t, rfl⟩ | hkept
  · exact g.readable_type t
  · exact h key v hkept

/-! ## 4. The order of names and fields does not matter -/

/-- Two values that are the same, or types that differ in the order of record fields only. -/
inductive Value.Alike : Value → Value → Prop
  | refl (v : Value) : Alike v v
  | type {t u : TypeSpec} : t.Alike u → Alike (.type t) (.type u)

theorem Value.Alike.symm {v w : Value} (h : v.Alike w) : w.Alike v := by
  cases h with
  | refl => exact .refl _
  | type htu => exact .type htu.symm

theorem Value.Alike.trans {v w x : Value} (h : v.Alike w) (h' : w.Alike x) : v.Alike x := by
  cases h with
  | refl => exact h'
  | type htu =>
      cases h' with
      | refl => exact .type htu
      | type huv => exact .type (htu.trans huv)

theorem Value.Alike.standsFor {g : Graph} {v w : Value} (h : v.Alike w) :
    Option.Rel TypeSpec.Alike (g.standsFor v) (g.standsFor w) := by
  cases h with
  | refl => exact OptionRel.refl TypeSpec.Alike.refl _
  | type htu =>
      rw [g.standsFor_type, g.standsFor_type]
      exact .some htu

theorem Value.Alike.readable {g : Graph} {v w : Value} (h : v.Alike w) (hv : g.Readable v) :
    g.Readable w := by
  cases h with
  | refl => exact hv
  | type _ => exact g.readable_type _

/-- Two tables of data that differ in the order of names and of record fields only. -/
abbrev SameData (data other : Entries Value) : Prop := data.Agree Value.Alike other

theorem SameData.refl (data : Entries Value) : SameData data data :=
  Entries.Agree.refl Value.Alike.refl data

theorem SameData.symm {data other : Entries Value} (h : SameData data other) :
    SameData other data := Entries.Agree.symm (fun _ _ hab => Value.Alike.symm hab) h

theorem SameData.trans {a b c : Entries Value} (h : SameData a b) (h' : SameData b c) :
    SameData a c := by
  have htrans : ∀ u v w : Value, u.Alike v → v.Alike w → u.Alike w := fun _ _ _ => Value.Alike.trans
  exact Entries.Agree.trans htrans h h'

theorem SameData.valueAt {data other : Entries Value} (h : SameData data other) (key : String) :
    (valueAt data key).Alike (valueAt other key) := by
  unfold SchemaFlow.valueAt
  cases hv : data.find? key with
  | none =>
      rw [h.find?_none hv]
      exact .refl _
  | some v =>
      obtain ⟨w, hw, hvw⟩ := h.find?_some hv
      rw [hw]
      exact hvw

theorem SameData.readable {g : Graph} {data other : Entries Value} (h : SameData data other)
    (hdata : g.ReadableTable data) : g.ReadableTable other := by
  intro key w hw
  obtain ⟨v, hv, hwv⟩ := h.symm.find?_some hw
  exact hwv.symm.readable (hdata key v hv)

theorem stored?_alike {o p : Option TypeSpec} (h : Option.Rel TypeSpec.Alike o p) :
    Option.Rel Value.Alike (stored? o) (stored? p) :=
  OptionRel.map (fun _ _ => .type) h

/-- **Productions and tables up to order give tables up to order.** -/
theorem effectOn_alike {g : Graph} {ps qs : Produced} (hps : ps.WellFormed) (hqs : qs.WellFormed)
    (hpq : SameProduced ps qs) {data other : Entries Value}
    (hdata : g.ReadableTable data) (hsame : SameData data other) :
    ∃ next next', effectOn g ps data = .ok next ∧ effectOn g qs other = .ok next' ∧
      SameData next next' := by
  obtain ⟨next, hnext, hfind⟩ := effectOn_eq hps.distinct hdata
  obtain ⟨next', hnext', hfind'⟩ := effectOn_eq hqs.distinct (hsame.readable hdata)
  refine ⟨next, next', hnext, hnext', fun key => ?_⟩
  rw [hfind key, hfind' key]
  cases hp : ps.find? key with
  | none =>
      rw [hpq.find?_none hp]
      exact hsame key
  | some p =>
      obtain ⟨q, hq, hpq'⟩ := hpq.find?_some hp
      rw [hq]
      exact stored?_alike (Production.apply_alike hpq' (hps.find? hp).2 (hqs.find? hq).2
        (hsame.valueAt key).standsFor)

/-! ## 5. Two stages at once -/

/-- What is left under a name stands for what the production made of it. -/
theorem standsFor_stored? (g : Graph) (o : Option TypeSpec) :
    g.standsFor ((stored? o).getD .absent) = o := by
  cases o with
  | none => rfl
  | some t => exact g.standsFor_type t

/-- **Composed productions do to a table what the two do one after the other.** -/
theorem effectOn_composeFields {g : Graph} {ps net : Produced} (hps : ps.WellFormed)
    (hnet : net.WellFormed) {data middle : Entries Value} (hdata : g.ReadableTable data)
    (hmiddle : effectOn g net data = .ok middle) :
    ∃ next next', effectOn g ps middle = .ok next ∧
      effectOn g (Production.composeFields ps net) data = .ok next' ∧ SameData next' next := by
  have hcomp := (Production.wellFormed_composeFields hps hnet).distinct
  obtain ⟨middle', hmiddle', hfind⟩ := effectOn_eq hnet.distinct hdata
  obtain rfl : middle' = middle := Except.ok.inj (hmiddle'.symm.trans hmiddle)
  obtain ⟨next, hnext, hfindNext⟩ :=
    effectOn_eq hps.distinct (hdata.effectOn hnet.distinct hmiddle)
  obtain ⟨next', hnext', hfindNext'⟩ := effectOn_eq hcomp hdata
  refine ⟨next, next', hnext, hnext', fun key => ?_⟩
  rw [hfindNext key, hfindNext' key, Production.find?_composeFields key net hps.distinct]
  cases hp : ps.find? key with
  | none =>
      simp only [hfind key]
      cases net.find? key <;> exact OptionRel.refl Value.Alike.refl _
  | some p =>
      simp only
      cases hq : net.find? key with
      | none =>
          have hsame : valueAt middle' key = valueAt data key := by
            unfold valueAt
            rw [hfind key, hq]
          rw [Production.compose_none, hsame]
          exact OptionRel.refl Value.Alike.refl _
      | some q =>
          have hstands : g.standsFor (valueAt middle' key) =
              q.apply (g.standsFor (valueAt data key)) := by
            rw [valueAt, hfind key, hq]
            exact standsFor_stored? g _
          rw [hstands]
          have hrel := Production.apply_compose (hps.find? hp).2 (hnet.find? hq).2
            (g.standsFor (valueAt data key))
          exact OptionRel.symm (fun _ _ => Value.Alike.symm) (stored?_alike hrel)

end SchemaFlow
