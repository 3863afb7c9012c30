import SchemaFlow.Proofs.Observation.Acceptance
import SchemaFlow.Proofs.Observation.Forms

/-!
# Demanding less of a value

A value that is accepted under a type can be observed under every type that demands less, and is
accepted there too (`Graph.observe_weaker`). That it is accepted once it is observed is
`observeAt_weaken`; what is left is that the second observation does not fail. It looks into no part
that the first one did not look into, and it looks there under a weaker hint (`Hint.Weaker`), or
under the very same one where neither type declares anything. Cycles do not matter: a container that
is met inside itself is seen in one way, whatever is demanded of it.
-/

namespace SchemaFlow

/-! ## 1. Weaker hints -/

/-- A hint that demands no more than a type: nothing, or a type that it may stand for. -/
inductive Hint.Weaker (s : TypeSpec) : Hint → Prop
  | none : Weaker s .none
  | type {d : TypeSpec} : d.Ancestorless → d.isCompatible s = true → Weaker s (.type d)

/-- A hint that demands no more than what is declared, and nothing where nothing is declared. -/
def Hint.Within : Option TypeSpec → Hint → Prop
  | some s, hint => Hint.Weaker s hint
  | Option.none, hint => hint = .none

namespace Hint

theorem within_none : ∀ declared : Option TypeSpec, Within declared .none
  | some _ => Weaker.none
  | Option.none => rfl

/-- The hint that a record without an ancestor gives for a field. -/
theorem part_fields_ancestorless (fs : Schema) (name : String) :
    part name (part "fields" (type (.record fs Option.none))) = ofType? (fs.find? name) := by
  simp only [part, ofPart, if_true]
  cases fs.find? name <;> rfl

namespace Weaker

variable {hint : Hint} {e : TypeSpec}

theorem element (h : Weaker (.sequence e) hint) : Weaker e hint.element := by
  cases h with
  | none => exact .none
  | type hd hcompatible =>
      obtain ⟨d, rfl, hde⟩ := TypeSpec.sequence_of_isCompatible hcompatible
      exact .type (hd.part (.element d)) hde

theorem value {k : ScalarKind} (h : Weaker (.mapping k e) hint) : Weaker e hint.value := by
  cases h with
  | none => exact .none
  | type hd hcompatible =>
      obtain ⟨d, rfl, hde⟩ := TypeSpec.mapping_of_isCompatible hcompatible
      exact .type (hd.part (.value k d)) hde

/-- A hint that is weaker than a mapping is no record. -/
theorem sort_ne_record {k : ScalarKind} (h : Weaker (.mapping k e) hint) :
    hint.sort? ≠ some "record" := by
  cases h with
  | none => simp [sort?]
  | type _ hcompatible =>
      obtain ⟨d, rfl, _⟩ := TypeSpec.mapping_of_isCompatible hcompatible
      simp [sort?, TypeSpec.sortName]

/-- A hint that is weaker than a mapping gives a key kind. -/
theorem keyKind_returns {k : ScalarKind} (h : Weaker (.mapping k e) hint)
    (kinds : List ScalarKind) : ∃ kind, keyKind hint kinds = .ok kind := by
  unfold keyKind
  split
  · exact ⟨_, rfl⟩
  · split
    · rename_i hsort
      cases h with
      | none => cases hsort
      | type _ hcompatible =>
          obtain ⟨d, rfl, _⟩ := TypeSpec.mapping_of_isCompatible hcompatible
          exact ⟨_, rfl⟩
    · exact ⟨_, rfl⟩

/-- What a weaker record demands of a field is within what the record declares for it. -/
theorem field {fs ds : Schema} (hd : (TypeSpec.record ds Option.none).Ancestorless)
    (hcompatible : (TypeSpec.record ds Option.none).isCompatible (.record fs Option.none) = true)
    (name : String) : Within (fs.find? name) (ofType? (ds.find? name)) := by
  obtain ⟨_, _, h, hfields⟩ := TypeSpec.isCompatible_record_iff.1 hcompatible
  obtain ⟨rfl, -⟩ := TypeSpec.record.inj h
  cases hdemand : ds.find? name with
  | none => exact within_none _
  | some d =>
      obtain ⟨s, hs, hds⟩ := hfields _ (Entries.mem_of_find? hdemand)
      rw [hs]
      exact Weaker.type (hd.part (TypeSpec.partOf_of_find? _ hdemand)) hds

end Weaker

end Hint

/-! ## 2. Observations that return -/

section Returns

variable {obs : Hint → Value → Except Fault TypeSpec} {hint : Hint}

theorem listType_returns {items : List Value} (h : ∀ w ∈ items, ∃ t, obs hint.element w = .ok t) :
    ∃ t, listType obs hint items = .ok t := by
  obtain ⟨e, he⟩ := elementType_returns hint.element.type? h
  exact ⟨.sequence e, by rw [listType, Step.bind_of_ok he]⟩

theorem mapType_returns {keyObs : Value → Except Fault TypeSpec} {entries : List (Value × Value)}
    {kinds : List ScalarKind} (hkinds : keyKinds keyObs [] (entries.map Prod.fst) = .ok kinds)
    (h : ∀ w ∈ entries.map Prod.snd, ∃ t, obs hint.value w = .ok t)
    (hkind : ∃ kind, keyKind hint kinds = .ok kind) :
    ∃ t, mapType obs keyObs hint entries = .ok t := by
  obtain ⟨t, ht⟩ := elementType_returns hint.value.type? h
  obtain ⟨kind, hkind⟩ := hkind
  exact ⟨.mapping kind t, by
    rw [mapType, Step.bind_of_ok hkinds, Step.bind_of_ok ht, Step.bind_of_ok hkind]⟩

/-- What a table seen as a record has under no name is the empty name. -/
theorem tableType_record_eq_ok {entries : Entries Value} {t : TypeSpec}
    (hsort : hint.sort? = some "record") (h : tableType obs hint entries = .ok t) :
    ∃ out, observeFields obs (hint.part "fields") {} entries = .ok out ∧
      out.entries.has "" = false := by
  rw [tableType, if_pos hsort] at h
  obtain ⟨out, hout, h⟩ := Step.bind_eq_ok.1 h
  split at h
  · cases h
  · exact ⟨out, hout, Bool.eq_false_iff.2 ‹_›⟩

end Returns

/-! ## 3. Tables seen as records -/

/-- Two tables on their way that have the same names and keep the same names. -/
structure Filling.Abreast {α : Type} (f f' : Filling α) : Prop where
  kept : f'.kept = f.kept
  names : ∀ name, f'.entries.has name = f.entries.has name

/-- Where one of two such tables takes an entry the other one takes one of the same name; what is
    stored as an ancestor has to be the same. -/
theorem Filling.Abreast.store {f f' f₁ : Filling TypeSpec} (h : f.Abreast f') {name : String}
    {t u : TypeSpec} (hsame : name = ancestorName → u = t)
    (hf₁ : f.store t.partNames name t = some f₁) :
    ∃ f₁', f'.store u.partNames name u = some f₁' ∧ f₁.Abreast f₁' := by
  by_cases hname : name = ancestorName
  · obtain rfl := hsame hname
    subst hname
    rw [Filling.store_ancestor] at hf₁
    obtain rfl := Option.some.inj hf₁
    exact ⟨_, Filling.store_ancestor _ _ _, rfl, h.names⟩
  · unfold Filling.store at hf₁ ⊢
    rw [if_neg hname] at hf₁ ⊢
    rw [h.kept, h.names name]
    split at hf₁
    · cases hf₁
    · rename_i hfree
      obtain rfl := Option.some.inj hf₁
      rw [if_neg hfree]
      refine ⟨_, rfl, rfl, fun other => ?_⟩
      have hother : f'.entries.has other = f.entries.has other := h.names other
      unfold Entries.has at hother ⊢
      rw [Entries.find?_insert, Entries.find?_insert]
      split
      · rfl
      · exact hother

/-- **Entries that can be seen as fields under one hint can be so under another** under which each
    of them can be observed, as long as what becomes an ancestor is seen in the same way. -/
theorem observeFields_abreast {obs : Hint → Value → Except Fault TypeSpec} {hint hint' : Hint} :
    ∀ {entries : Entries Value} {f f' out : Filling TypeSpec},
      (∀ e ∈ entries, e.2.isAbsent = false → ∃ u, obs (hint'.part e.1) e.2 = .ok u) →
      hint'.part ancestorName = hint.part ancestorName → f.Abreast f' →
      observeFields obs hint f entries = .ok out →
      ∃ out', observeFields obs hint' f' entries = .ok out' ∧ out.Abreast out'
  | [], f, f', out, _, _, habreast, h => by
      cases h
      exact ⟨f', rfl, habreast⟩
  | (name, w) :: entries, f, f', out, hentries, hancestor, habreast, h => by
      obtain ⟨hw, hrest⟩ := List.forall_mem_cons.1 hentries
      rw [observeFields] at h ⊢
      split at h
      · rw [if_pos (by assumption)]
        exact observeFields_abreast hrest hancestor habreast h
      · rename_i hpresent
        rw [if_neg hpresent]
        obtain ⟨t, ht, h⟩ := Step.bind_eq_ok.1 h
        obtain ⟨u, hu⟩ := hw (Bool.eq_false_iff.2 hpresent)
        have hsame : name = ancestorName → u = t := by
          rintro rfl
          dsimp only at hu
          rw [hancestor, ht] at hu
          exact (Except.ok.inj hu).symm
        split at h
        · rename_i f₁ hf₁
          obtain ⟨f₁', hf₁', habreast'⟩ := habreast.store hsame hf₁
          rw [Step.bind_of_ok hu, hf₁']
          exact observeFields_abreast hrest hancestor habreast' h
        · cases h

variable {g : Graph} {keyed visiting : List Nat}

theorem observeAt_absent_returns (hint : Hint) {w : Value} (hw : w.isAbsent = true) :
    ∃ u, g.observeAt keyed visiting hint w = .ok u := by
  cases w with
  | absent => exact ⟨_, observeAt_leaf g keyed visiting hint rfl⟩
  | _ => cases hw

/-- An accepted value can be observed under every weaker hint. -/
def Weakenable (g : Graph) (keyed visiting : List Nat) (s : TypeSpec) (v : Value) : Prop :=
  Accepted (g.observeAt keyed visiting) s v → ∀ {hint : Hint}, Hint.Weaker s hint →
    ∃ u, g.observeAt keyed visiting hint v = .ok u

section Records

variable {fs : Schema} {entries : Entries Value} {t : TypeSpec}
  (hwf : (TypeSpec.record fs none).WellFormed) (hd : entries.Distinct)
  (ht : tableType (fun hint w => g.observeAt keyed visiting hint w) (.type (.record fs none))
    entries = .ok t)
  (haccepted : (TypeSpec.record fs none).isCompatible t = true)
  (hentries : ∀ e ∈ entries, ∀ s, fs.find? e.1 = some s → Weakenable g keyed visiting s e.2)

include hwf hd ht haccepted hentries

/-- An entry of a table that is accepted under a record can be seen under every hint that is within
    what is declared for it. -/
theorem entry_returns {e : String × Value} (he : e ∈ entries) {hint : Hint}
    (hhint : Hint.Within (fs.find? e.1) hint) : ∃ u, g.observeAt keyed visiting hint e.2 = .ok u := by
  cases hpresent : e.2.isAbsent with
  | true => exact observeAt_absent_returns hint hpresent
  | false =>
      cases hdeclared : fs.find? e.1 with
      | some s =>
          rw [hdeclared] at hhint
          rcases accepted_of_tableType hwf hd ht haccepted with ⟨_, h, _⟩ | ⟨_, _, h, hfields⟩
          · cases h
          · obtain ⟨rfl, -⟩ := TypeSpec.record.inj h
            have hfield := (hfields _ _ hdeclared).2
            rw [valueAt_of_find? (hd.find?_of_mem he)] at hfield
            exact hentries e he s hdeclared hfield hhint
      | none =>
          -- the entry has been seen under no hint already
          rw [hdeclared] at hhint
          obtain rfl : hint = .none := hhint
          obtain ⟨out, hout, _⟩ := tableType_record_eq_ok rfl ht
          have hobserved := observed_of_observeFields hout e he hpresent
          rw [Hint.part_fields_ancestorless, hdeclared] at hobserved
          exact hobserved

/-- **A table that is accepted under a record can be seen under every weaker hint.** -/
theorem tableType_returns_of_record {hint : Hint} (hweak : Hint.Weaker (.record fs none) hint) :
    ∃ u, tableType (fun hint w => g.observeAt keyed visiting hint w) hint entries = .ok u := by
  have hentry : ∀ e ∈ entries, ∀ hint, Hint.Within (fs.find? e.1) hint →
      ∃ u, g.observeAt keyed visiting hint e.2 = .ok u :=
    fun _ he _ hhint => entry_returns hwf hd ht haccepted hentries he hhint
  cases hweak with
  | none =>
      exact tableType_returns_of_contents (by simp [Hint.sort?]) fun e he =>
        hentry e he _ (Hint.within_none _)
  | @type d hda hcompatible =>
      obtain ⟨ds, ancestor, rfl⟩ := TypeSpec.record_of_isCompatible hcompatible
      obtain rfl := hda.eq_none
      obtain ⟨out, hout, hempty⟩ := tableType_record_eq_ok rfl ht
      have hfield := Hint.Weaker.field hda hcompatible
      -- nothing can be declared under the name of the ancestor
      have hancestor : fs.find? ancestorName = none := by
        cases hs : fs.find? ancestorName with
        | none => rfl
        | some s => exact absurd rfl (hwf.fields.find? hs).1.2
      have hsame : Hint.part ancestorName (Hint.part "fields" (.type (.record ds none))) =
          Hint.part ancestorName (Hint.part "fields" (.type (.record fs none))) := by
        have hnone := hfield ancestorName
        rw [hancestor] at hnone
        rw [Hint.part_fields_ancestorless, Hint.part_fields_ancestorless, hancestor]
        exact hnone
      have hseen : ∀ e ∈ entries, e.2.isAbsent = false →
          ∃ u, g.observeAt keyed visiting
            (Hint.part e.1 (Hint.part "fields" (.type (.record ds none)))) e.2 = .ok u := by
        intro e he _
        rw [Hint.part_fields_ancestorless]
        exact hentry e he _ (hfield e.1)
      have hstart : Filling.Abreast ({} : Filling TypeSpec) {} := ⟨rfl, fun _ => rfl⟩
      obtain ⟨out', hout', habreast⟩ := observeFields_abreast hseen hsame hstart hout
      refine ⟨.record out'.entries none, ?_⟩
      have hempty' : out'.entries.has "" = false := (habreast.names "").trans hempty
      have hsort : (Hint.type (.record ds none)).sort? = some "record" := rfl
      rw [tableType, if_pos hsort, Step.bind_of_ok hout', hempty']
      rfl

end Records

/-! ## 4. Weaker types -/

/-- **A value that is accepted under a type can be observed under every weaker hint.** -/
theorem weakenable (g : Graph) (s : TypeSpec) : s.WellFormed → s.Ancestorless →
    ∀ (keyed visiting : List Nat) {v : Value}, g.Tidy v → Weakenable g keyed visiting s v := by
  induction s using TypeSpec.part_induction with
  | h s ih =>
      intro hwf hancestorless keyed visiting v hv ⟨t, ht, haccepted⟩ hint hweak
      have hpart : ∀ e, e.PartOf s → ∀ {w : Value}, w ∈ (g.form v).parts →
          Weakenable g keyed (v.enter visiting) e w := fun e he _ hw =>
        ih e he (hwf.part he) (hancestorless.part he) keyed (v.enter visiting) (hv.part hw)
      cases seen_observeAt g keyed visiting v with
      | fixed hsame => exact ⟨t, (hsame _ _).trans ht⟩
      | list hform hshown =>
          rw [hform] at hpart
          rw [hshown] at ht ⊢
          obtain ⟨e, rfl, hitems⟩ := accepted_of_listType ht haccepted
          exact listType_returns fun w hw =>
            hpart e (.element e) hw (hitems w hw) hweak.element
      | @table entries hform hshown =>
          have hd := hv v entries .refl hform
          rw [hform] at hpart
          rw [hshown] at ht ⊢
          rcases accepted_of_tableType hwf hd ht haccepted with
            ⟨e, rfl, hcontents⟩ | ⟨fs, ancestor, rfl, _⟩
          · exact tableType_returns_of_contents hweak.sort_ne_record fun x hx =>
              hpart e (.value .string e) (List.mem_map_of_mem hx) (hcontents x hx) hweak.value
          · obtain rfl := hancestorless.eq_none
            exact tableType_returns_of_record hwf hd ht haccepted (fun x hx s hs =>
              hpart s (TypeSpec.partOf_of_find? none hs) (List.mem_map_of_mem hx)) hweak
      | map keyObs hform hshown =>
          rw [hform] at hpart
          rw [hshown] at ht ⊢
          obtain ⟨kinds, x, kind, rfl, hkinds, hx, _⟩ := mapType_eq_ok ht
          obtain ⟨e, rfl, hex⟩ := TypeSpec.mapping_of_isCompatible haccepted
          exact mapType_returns hkinds (fun w hw => hpart e (.value kind e)
            (List.mem_append_right _ hw) (forall_of_firstMisfit hx hex w hw) hweak.value)
            (hweak.keyKind_returns kinds)

/-- **Demanding less of a value that is accepted never makes it fail.** Where a value can be observed
under a type and is compatible with it then, it can be observed under every type that demands less,
and is compatible with that. -/
theorem Graph.observe_weaker {weak strong t : TypeSpec} {v : Value} (hweak : weak.WellFormed)
    (hstrong : strong.WellFormed) (hweak' : weak.Ancestorless) (hstrong' : strong.Ancestorless)
    (hv : g.Tidy v) (hless : weak.isCompatible strong = true)
    (ht : g.observe (some strong) v = .ok t) (haccepted : strong.isCompatible t = true) :
    ∃ u, g.observe (some weak) v = .ok u ∧ weak.isCompatible u = true := by
  obtain ⟨u, hu⟩ := weakenable g strong hstrong hstrong' [] [] hv ⟨t, ht, haccepted⟩
    (.type hweak' hless)
  exact ⟨u, hu, observeAt_weaken g hweak [] [] hless ht haccepted hu⟩

/-! ## 5. A row that holds itself -/

/-- A row that has itself as a field. -/
def Graph.loopSample : Graph := ⟨#[.object .plain [("name", .text "a"), ("self", .node 0)]]⟩

/-- What is demanded of the row: two fields, one of them the row itself. -/
def loopRecord : TypeSpec :=
  .record [("name", .scalar .string), ("self", .handle "Object")] none

theorem Graph.loopSample_form :
    loopSample.form (.node 0) = .table [("name", .text "a"), ("self", .node 0)] := rfl

theorem Graph.loopSample_tidy : loopSample.Tidy (.node 0) := by
  have hreaches : ∀ w, loopSample.Reaches (.node 0) w → w = .node 0 ∨ w = .text "a" := by
    intro w hw
    induction hw with
    | refl => exact Or.inl rfl
    | tail _ hholds ih =>
        rcases ih with rfl | rfl
        · have hmem : _ ∈ [Value.text "a", .node 0] := hholds
          simp only [List.mem_cons, List.not_mem_nil, or_false] at hmem
          exact hmem.symm
        · cases hholds
  intro w entries hw hform
  rcases hreaches w hw with rfl | rfl
  · cases hform
    decide
  · cases hform

/-- Met inside itself the row is seen as a handle. -/
theorem Graph.loopSample_observe :
    loopSample.observe (some loopRecord) (.node 0) = .ok loopRecord := by
  have hself : ∀ hint, loopSample.observeAt [] [0] hint (.node 0) = .ok (.handle "Object") :=
    fun hint => observeAt_visited loopSample [] hint List.mem_cons_self
  refine (observeAt_form (fun _ h => absurd h List.not_mem_nil)
    (fun _ h => absurd h List.not_mem_nil) _).trans ?_
  rw [loopSample_form]
  have hfields : observeFields (fun hint w => loopSample.observeAt [] [0] hint w)
      (Hint.part "fields" (.type loopRecord)) {} [("name", .text "a"), ("self", .node 0)] =
      .ok { entries := [("name", .scalar .string), ("self", .handle "Object")] } := by
    rw [observeFields_cons rfl (observeAt_leaf loopSample [] [0] _ rfl) rfl,
      observeFields_cons rfl (hself _) rfl]
    rfl
  exact Step.bind_of_ok hfields _

/-- The row is accepted as what it is, and where no more is demanded than that it has itself. -/
theorem Graph.observe_weaker_loop :
    loopSample.Tidy (.node 0) ∧
      (TypeSpec.record [("self", .handle "Object")] none).isCompatible loopRecord = true ∧
      loopSample.observe (some loopRecord) (.node 0) = .ok loopRecord ∧
      loopRecord.isCompatible loopRecord = true ∧
      ∃ u, loopSample.observe (some (.record [("self", .handle "Object")] none)) (.node 0) = .ok u ∧
        (TypeSpec.record [("self", .handle "Object")] none).isCompatible u = true := by
  have hweak : (TypeSpec.record [("self", .handle "Object")] none).Ancestorless := by
    refine .record ?_
    simp only [List.forall_mem_singleton]
    exact .handle _
  have hstrong : loopRecord.Ancestorless := by
    refine .record ?_
    simp only [List.forall_mem_cons]
    exact ⟨.scalar _, .handle _, fun _ h => absurd h List.not_mem_nil⟩
  exact ⟨loopSample_tidy, rfl, loopSample_observe, rfl,
    Graph.observe_weaker (by decide) (by decide) hweak hstrong loopSample_tidy rfl loopSample_observe
      rfl⟩

end SchemaFlow
