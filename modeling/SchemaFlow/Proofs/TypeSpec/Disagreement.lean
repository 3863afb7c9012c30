import SchemaFlow.Proofs.TypeSpec.Order

/-!
# What a diagnosis depends on

Two types may disagree in several places, in one place by their types and in another by their shapes.
A diagnosis names the first disagreement in the order of the declared fields. So of the order in which
record fields stand it keeps this much: that there is a disagreement, and what kind it has as long as
all of them have one kind.

* `Disagrees`: the disagreements of two types, whichever is met first;
* `disagrees_of_diagnose`, `Disagrees.exists_order`: each of them, and nothing else, is diagnosed in
  some order of the declared fields;
* `Disagrees.stronger`: a disagreement with a type is one with every type that demands more;
* `diagnose_eq_none_iff_agree`: where there is none, nothing is diagnosed;
* `diagnose_reordered`: when a diagnosis does not depend on the order of fields.
-/

namespace SchemaFlow

namespace TypeSpec

/-! ## 1. Types in another order of fields -/

/-- A well-formed type with the fields of another in any order, at every depth. Ancestors are no
    fields and do not count. -/
structure Reordered (t u : TypeSpec) : Prop where
  wellFormed : u.WellFormed
  alike : t.bare.Alike u.bare

namespace Reordered

theorem refl {t : TypeSpec} (ht : t.WellFormed) : t.Reordered t := ⟨ht, Alike.refl _⟩

theorem sequence {e f : TypeSpec} (h : e.Reordered f) :
    (TypeSpec.sequence e).Reordered (.sequence f) where
  wellFormed := .sequence h.wellFormed
  alike := by
    rw [bare, bare]
    exact .sequence h.alike

theorem mapping (k : ScalarKind) {v w : TypeSpec} (h : v.Reordered w) :
    (TypeSpec.mapping k v).Reordered (.mapping k w) where
  wellFormed := .mapping k h.wellFormed
  alike := by
    rw [bare, bare]
    exact .mapping k h.alike

/-- A record with one of its fields in front, and the type of this field reordered. -/
theorem record_front {fs : Schema} {ancestor : Option TypeSpec}
    (hr : (TypeSpec.record fs ancestor).WellFormed) {name : String} {t u : TypeSpec}
    (ht : fs.find? name = some t) (h : t.Reordered u) :
    (TypeSpec.record fs ancestor).Reordered (.record ((name, u) :: fs.erase name) ancestor) := by
  have hfs : Schema.WellFormed fs := hr.fields
  have hrest : Schema.WellFormed (fs.erase name) := hfs.erase name
  have hancestor : ∀ a, ancestor = some a → a.WellFormed := by
    cases hr with
    | record _ _ _ ha => exact ha
  constructor
  · refine .record (Entries.distinct_cons_iff.2 ⟨?_, hrest.distinct⟩) ?_ ?_ hancestor
    · rw [Entries.find?_erase, if_pos rfl]
    · exact List.forall_mem_cons.2 ⟨(hfs.find? ht).1, hrest.proper⟩
    · exact List.forall_mem_cons.2 ⟨h.wellFormed, hrest.types⟩
  · rw [bare, bare]
    refine Alike.of_agree none fun other => ?_
    rw [find?_bareFields, find?_bareFields, Entries.find?_cons, Entries.find?_erase]
    by_cases hk : name = other
    · subst hk
      rw [if_pos rfl, ht]
      exact .some h.alike
    · rw [if_neg hk, if_neg fun e => hk e.symm]
      exact OptionRel.refl Alike.refl _

/-- Reordered types may stand for each other. -/
theorem isCompatible {t u : TypeSpec} (ht : t.WellFormed) (h : t.Reordered u) :
    t.isCompatible u = true ∧ u.isCompatible t = true :=
  ⟨isCompatible_of_bare_alike ht h.alike, isCompatible_of_bare_alike h.wellFormed h.alike.symm⟩

/-- **The order of observed fields does not matter to a diagnosis.** -/
theorem diagnose_eq {o o' : TypeSpec} (h : o.Reordered o') (d : TypeSpec) :
    d.diagnose o' = d.diagnose o := by
  rw [← diagnose_bare, ← diagnose_alike d.bare h.alike, diagnose_bare]

end Reordered

/-- **A record is reordered to the same names with reordered types, in any order.** -/
theorem reordered_record_iff {fs gs : Schema} {a b : Option TypeSpec}
    (hf : (TypeSpec.record fs a).WellFormed) (hg : (TypeSpec.record gs b).WellFormed) :
    (TypeSpec.record fs a).Reordered (.record gs b) ↔
      ∃ hs : Schema, hs.Perm gs ∧
        List.Forall₂ (fun e f : String × TypeSpec => e.1 = f.1 ∧ e.2.Reordered f.2) fs hs := by
  rw [← Entries.agree_iff_perm hf.fields.distinct hg.fields.distinct]
  constructor
  · intro h
    have hagree := h.alike
    rw [bare, bare] at hagree
    refine Entries.agree_iff.2 ⟨fun name => ?_, fun name t u ht hu => ⟨(hg.fields.find? hu).2, ?_⟩⟩
    · have hhas := (Entries.agree_iff.1 hagree.agree).1 name
      simpa only [Entries.has, find?_bareFields, Option.isSome_map] using hhas
    · refine (Entries.agree_iff.1 hagree.agree).2 name _ _ ?_ ?_
      · rw [find?_bareFields, ht, Option.map_some]
      · rw [find?_bareFields, hu, Option.map_some]
  · intro h
    refine ⟨hg, ?_⟩
    rw [bare, bare]
    refine Alike.of_agree none fun name => ?_
    rw [find?_bareFields, find?_bareFields]
    have hbare : ∀ t u : TypeSpec, t.Reordered u → t.bare.Alike u.bare := fun _ _ htu => htu.alike
    exact OptionRel.map hbare (h name)

/-! ## 2. Disagreements -/

/-- The disagreements of a declared and an observed type, in whatever place of the two. -/
inductive Disagrees : Mismatch → TypeSpec → TypeSpec → Prop
  | sort {d o : TypeSpec} : d.sortName ≠ o.sortName → Disagrees .type d o
  | scalar {k l : ScalarKind} : k ≠ l → Disagrees .type (.scalar k) (.scalar l)
  | element {m : Mismatch} {e f : TypeSpec} :
      Disagrees m e f → Disagrees m (.sequence e) (.sequence f)
  | items {k l : ScalarKind} {ds es : List Dimension} :
      k ≠ l → Disagrees .type (.array k ds) (.array l es)
  | dimensions (k : ScalarKind) {ds es : List Dimension} :
      dimensionsFit ds es = false → Disagrees .shape (.array k ds) (.array k es)
  | key {k l : ScalarKind} {v w : TypeSpec} :
      k ≠ l → Disagrees .type (.mapping k v) (.mapping l w)
  | value {m : Mismatch} (k : ScalarKind) {v w : TypeSpec} :
      Disagrees m v w → Disagrees m (.mapping k v) (.mapping k w)
  | label {a b : String} : a ≠ b → Disagrees .type (.handle a) (.handle b)
  | missing {fs gs : List (String × TypeSpec)} {a b : Option TypeSpec} {name : String}
      {t : TypeSpec} : Entries.find? fs name = some t → Entries.find? gs name = none →
      Disagrees .type (.record fs a) (.record gs b)
  | field {m : Mismatch} {fs gs : List (String × TypeSpec)} {a b : Option TypeSpec} {name : String}
      {t u : TypeSpec} : Entries.find? fs name = some t → Entries.find? gs name = some u →
      Disagrees m t u → Disagrees m (.record fs a) (.record gs b)

/-- A disagreement found among declared fields is that of one field. -/
theorem exists_of_diagnoseFields {os : Schema} {m : Mismatch} : ∀ {ds : List (String × TypeSpec)},
    diagnoseFields ds os = some m → ∃ e ∈ ds,
      (os.find? e.1 = none ∧ m = .type) ∨ ∃ u, os.find? e.1 = some u ∧ e.2.diagnose u = some m
  | [], h => by cases h
  | (name, t) :: ds, h => by
      rw [diagnoseFields] at h
      cases hu : Entries.find? os name with
      | none =>
          rw [hu] at h
          exact ⟨(name, t), List.mem_cons_self, .inl ⟨hu, (Option.some.inj h).symm⟩⟩
      | some u =>
          rw [hu] at h
          cases hm : t.diagnose u with
          | some n =>
              simp only [hm] at h
              exact ⟨(name, t), List.mem_cons_self, .inr ⟨u, hu, hm.trans h⟩⟩
          | none =>
              simp only [hm] at h
              obtain ⟨e, he, hfound⟩ := exists_of_diagnoseFields h
              exact ⟨e, List.mem_cons_of_mem _ he, hfound⟩

/-- **What is diagnosed is a disagreement.** -/
theorem disagrees_of_diagnose {d : TypeSpec} (hd : d.WellFormed) : ∀ {o : TypeSpec} {m : Mismatch},
    d.diagnose o = some m → Disagrees m d o := by
  -- types of different sorts disagree as types
  have hsort : ∀ {d o : TypeSpec} {m : Mismatch}, d.sortName ≠ o.sortName →
      d.diagnose o = some m → Disagrees m d o := by
    intro d o m hne h
    rw [diagnose_of_sortName_ne hne] at h
    obtain rfl := Option.some.inj h
    exact .sort hne
  induction hd with
  | scalar k =>
      intro o m h
      cases o with
      | scalar l =>
          rw [diagnose, Option.ite_none_left_eq_some] at h
          obtain ⟨hk, hm⟩ := h
          obtain rfl := Option.some.inj hm
          exact .scalar hk
      | _ => exact hsort (by simp [sortName]) h
  | sequence _ ih =>
      intro o m h
      cases o with
      | sequence f => exact .element (ih h)
      | _ => exact hsort (by simp [sortName]) h
  | array k _ =>
      intro o m h
      cases o with
      | array l es =>
          rw [diagnose] at h
          by_cases hk : k = l
          · subst hk
            rw [if_neg (by simp)] at h
            split at h
            · cases h
            · rename_i hfit
              obtain rfl := Option.some.inj h
              exact .dimensions k (Bool.eq_false_iff.2 hfit)
          · rw [if_pos hk] at h
            obtain rfl := Option.some.inj h
            exact .items hk
      | _ => exact hsort (by simp [sortName]) h
  | mapping k _ ih =>
      intro o m h
      cases o with
      | mapping l w =>
          rw [diagnose] at h
          by_cases hk : k = l
          · subst hk
            rw [if_pos rfl] at h
            exact .value k (ih h)
          · rw [if_neg hk] at h
            obtain rfl := Option.some.inj h
            exact .key hk
      | _ => exact hsort (by simp [sortName]) h
  | handle _ =>
      intro o m h
      cases o with
      | handle b =>
          rw [diagnose, Option.ite_none_left_eq_some] at h
          obtain ⟨hne, hm⟩ := h
          obtain rfl := Option.some.inj hm
          exact .label hne
      | _ => exact hsort (by simp [sortName]) h
  | record hdistinct _ _ _ ih _ =>
      intro o m h
      cases o with
      | record os _ =>
          rw [diagnose] at h
          obtain ⟨e, he, ⟨hmissing, rfl⟩ | ⟨u, hu, hm⟩⟩ := exists_of_diagnoseFields h
          · exact .missing (hdistinct.find?_of_mem he) hmissing
          · exact .field (hdistinct.find?_of_mem he) hu (ih e he hm)
      | _ => exact hsort (by simp [sortName]) h

namespace Disagrees

variable {m : Mismatch} {d o : TypeSpec}

/-- No type disagrees with itself. -/
theorem ne (h : Disagrees m d o) : d ≠ o := by
  induction h with
  | sort hne =>
      rintro rfl
      exact hne rfl
  | scalar hk => exact fun e => hk (TypeSpec.scalar.inj e)
  | element _ ih => exact fun e => ih (TypeSpec.sequence.inj e)
  | items hk => exact fun e => hk (TypeSpec.array.inj e).1
  | dimensions k hfit =>
      intro e
      obtain ⟨-, rfl⟩ := TypeSpec.array.inj e
      rw [dimensionsFit_self] at hfit
      cases hfit
  | key hk => exact fun e => hk (TypeSpec.mapping.inj e).1
  | value k _ ih => exact fun e => ih (TypeSpec.mapping.inj e).2
  | label hne => exact fun e => hne (TypeSpec.handle.inj e)
  | missing ht hnone =>
      intro e
      obtain ⟨rfl, -⟩ := TypeSpec.record.inj e
      rw [ht] at hnone
      cases hnone
  | field ht hu _ ih =>
      intro e
      obtain ⟨rfl, -⟩ := TypeSpec.record.inj e
      exact ih (Option.some.inj (ht.symm.trans hu))

/-- **A disagreement with a type is one with every type that demands more**, and of the same kind. -/
theorem stronger (h : Disagrees m d o) : ∀ {d' : TypeSpec}, d.isCompatible d' = true →
    Disagrees m d' o := by
  induction h with
  | sort hne =>
      intro d' hd
      exact .sort (sortName_of_isCompatible hd ▸ hne)
  | scalar hk =>
      intro d' hd
      obtain rfl := isCompatible_scalar_iff.1 hd
      exact .scalar hk
  | element _ ih =>
      intro d' hd
      obtain ⟨e', rfl, he⟩ := isCompatible_sequence_iff.1 hd
      exact .element (ih he)
  | items hk =>
      intro d' hd
      obtain ⟨ds', rfl, -⟩ := isCompatible_array_iff.1 hd
      exact .items hk
  | @dimensions k ds es hfit =>
      intro d' hd
      obtain ⟨ds', rfl, hds⟩ := isCompatible_array_iff.1 hd
      -- dimensions that meet the stronger demand would meet this one
      refine .dimensions k (Bool.eq_false_iff.2 fun hfit' => ?_)
      rw [dimensionsFit_trans hds hfit'] at hfit
      cases hfit
  | key hk =>
      intro d' hd
      obtain ⟨v', rfl, -⟩ := isCompatible_mapping_iff.1 hd
      exact .key hk
  | value k _ ih =>
      intro d' hd
      obtain ⟨v', rfl, hv⟩ := isCompatible_mapping_iff.1 hd
      exact .value k (ih hv)
  | label hne =>
      intro d' hd
      obtain rfl := isCompatible_handle_iff.1 hd
      exact .label hne
  | missing ht hnone =>
      intro d' hd
      obtain ⟨fs', a', rfl, hfields⟩ := isCompatible_record_iff.1 hd
      obtain ⟨t', ht', -⟩ := hfields _ (Entries.mem_of_find? ht)
      exact .missing ht' hnone
  | field ht hu _ ih =>
      intro d' hd
      obtain ⟨fs', a', rfl, hfields⟩ := isCompatible_record_iff.1 hd
      obtain ⟨t', ht', htt⟩ := hfields _ (Entries.mem_of_find? ht)
      exact .field ht' hu (ih htt)

/-- **Each disagreement is diagnosed in some order of the declared fields**: the field where it is
    comes first, at every depth on the way. -/
theorem exists_order (h : Disagrees m d o) (hd : d.WellFormed) :
    ∃ d', d.Reordered d' ∧ d'.diagnose o = some m := by
  induction h with
  | sort hne => exact ⟨_, .refl hd, diagnose_of_sortName_ne hne⟩
  | scalar hk => exact ⟨_, .refl hd, by rw [diagnose, if_neg hk]⟩
  | element _ ih =>
      cases hd with
      | sequence he =>
          obtain ⟨e', hee, hm⟩ := ih he
          exact ⟨.sequence e', hee.sequence, by rw [diagnose, hm]⟩
  | items hk => exact ⟨_, .refl hd, by rw [diagnose, if_pos hk]⟩
  | dimensions k hfit =>
      refine ⟨_, .refl hd, ?_⟩
      rw [diagnose, if_neg (by simp), if_neg (by simp [hfit])]
  | key hk => exact ⟨_, .refl hd, by rw [diagnose, if_neg hk]⟩
  | value k _ ih =>
      cases hd with
      | mapping _ hv =>
          obtain ⟨v', hvv, hm⟩ := ih hv
          exact ⟨.mapping k v', hvv.mapping k, by rw [diagnose, if_pos rfl, hm]⟩
  | label hne => exact ⟨_, .refl hd, by rw [diagnose, if_neg hne]⟩
  | @missing fs gs a b name t ht hnone =>
      refine ⟨_, Reordered.record_front hd ht (.refl (hd.fields.find? ht).2), ?_⟩
      rw [diagnose, diagnoseFields, hnone]
  | @field _ fs gs a b name t u ht hu _ ih =>
      obtain ⟨t', htt, hm⟩ := ih (hd.fields.find? ht).2
      refine ⟨_, Reordered.record_front hd ht htt, ?_⟩
      rw [diagnose, diagnoseFields, hu]
      simp only [hm]

/-- Where not both kinds of disagreements are, there is one at most. -/
theorem kind_eq {m' : Mismatch} (hone : ¬ (Disagrees .type d o ∧ Disagrees .shape d o))
    (h : Disagrees m d o) (h' : Disagrees m' d o) : m = m' := by
  cases m with
  | type =>
      cases m' with
      | type => rfl
      | shape => exact absurd ⟨h, h'⟩ hone
  | shape =>
      cases m' with
      | type => exact absurd ⟨h', h⟩ hone
      | shape => rfl

end Disagrees

/-- **Nothing is diagnosed if and only if there is no disagreement.** -/
theorem diagnose_eq_none_iff_agree {d o : TypeSpec} (hd : d.WellFormed) :
    d.diagnose o = none ↔ ∀ m, ¬ Disagrees m d o := by
  constructor
  · -- a disagreement with the declared type would be one of the observed type with itself
    exact fun hnone m h => (h.stronger (isCompatible_iff.2 hnone)).ne rfl
  · intro hagree
    cases hm : d.diagnose o with
    | none => rfl
    | some m => exact absurd (disagrees_of_diagnose hd hm) (hagree m)

/-! ## 3. The order of fields -/

/-- Whether types disagree does not depend on the order of their fields. -/
theorem diagnose_eq_none_reordered {d d' : TypeSpec} (hd : d.WellFormed) (h : d.Reordered d')
    (o : TypeSpec) : d'.diagnose o = none ↔ d.diagnose o = none := by
  obtain ⟨hthere, hback⟩ := h.isCompatible hd
  rw [← isCompatible_iff, ← isCompatible_iff]
  exact ⟨isCompatible_trans d hthere, isCompatible_trans d' hback⟩

/-- What is diagnosed in one order of the declared fields is a disagreement in every order. -/
theorem disagrees_of_diagnose_reordered {d d' o : TypeSpec} (hd : d.WellFormed)
    (h : d.Reordered d') {m : Mismatch} (hm : d'.diagnose o = some m) : Disagrees m d o :=
  (disagrees_of_diagnose h.wellFormed hm).stronger (h.isCompatible hd).2

/-- **What the order of fields means to a diagnosis.** The order of observed fields means nothing, and
    neither order decides whether there is a disagreement. The kinds that are diagnosed in the various
    orders are those of the disagreements. So a diagnosis is the same in all orders if and only if no
    two disagreements are of different kinds. -/
theorem diagnose_reordered {d o : TypeSpec} (hd : d.WellFormed) (ho : o.WellFormed) :
    (∀ d' o', d.Reordered d' → o.Reordered o' →
      d'.diagnose o' = d'.diagnose o ∧ (d'.diagnose o' = none ↔ d.diagnose o = none)) ∧
    (∀ m, (∃ d' o', d.Reordered d' ∧ o.Reordered o' ∧ d'.diagnose o' = some m) ↔
      Disagrees m d o) ∧
    ((∀ d' o', d.Reordered d' → o.Reordered o' → d'.diagnose o' = d.diagnose o) ↔
      ¬ (Disagrees .type d o ∧ Disagrees .shape d o)) := by
  refine ⟨fun d' o' hdd hoo => ?_, fun m => ⟨?_, fun h => ?_⟩, fun hsame => ?_, fun hone => ?_⟩
  · rw [hoo.diagnose_eq]
    exact ⟨rfl, diagnose_eq_none_reordered hd hdd o⟩
  · rintro ⟨d', o', hdd, hoo, hm⟩
    rw [hoo.diagnose_eq] at hm
    exact disagrees_of_diagnose_reordered hd hdd hm
  · obtain ⟨d', hdd, hm⟩ := h.exists_order hd
    exact ⟨d', o, hdd, .refl ho, hm⟩
  · -- each of the two kinds is diagnosed in some order
    rintro ⟨htype, hshape⟩
    obtain ⟨d₁, hd₁, hm₁⟩ := htype.exists_order hd
    obtain ⟨d₂, hd₂, hm₂⟩ := hshape.exists_order hd
    have hboth := (hsame d₁ o hd₁ (.refl ho)).trans (hsame d₂ o hd₂ (.refl ho)).symm
    rw [hm₁, hm₂] at hboth
    cases hboth
  · intro d' o' hdd hoo
    rw [hoo.diagnose_eq]
    cases hm : d.diagnose o with
    | none => exact (diagnose_eq_none_reordered hd hdd o).2 hm
    | some m =>
        have hsome : d'.diagnose o ≠ none := fun hnone => by
          rw [(diagnose_eq_none_reordered hd hdd o).1 hnone] at hm
          cases hm
        obtain ⟨m', hm'⟩ := Option.ne_none_iff_exists'.1 hsome
        have h := disagrees_of_diagnose hd hm
        have h' := disagrees_of_diagnose_reordered hd hdd hm'
        rw [hm', h'.kind_eq hone h]

/-! ## 4. A labelled grid -/

/-- A labelled grid as it is declared, with the label or the grid in front. -/
def gridSample (gridFirst : Bool) : TypeSpec :=
  let fields := [("label", .scalar .string), ("grid", .array .float [.fixed 2])]
  .record (if gridFirst then fields.reverse else fields) none

/-- A grid of another size, with a label of some kind. -/
def gridSeen (label : ScalarKind) : TypeSpec :=
  .record [("label", .scalar label), ("grid", .array .float [.fixed 3])] none

theorem gridSample_reordered : (gridSample false).Reordered (gridSample true) :=
  ⟨by decide, bare_alike _ (by decide) (by decide)⟩

/-- Under a label that fits only the grid disagrees. -/
theorem gridSample_agrees : ¬ Disagrees .type (gridSample false) (gridSeen .string) := by
  intro h
  cases h with
  | sort hne => exact hne rfl
  | @missing _ _ _ _ name _ ht hnone =>
      simp only [Bool.false_eq_true, if_false, Entries.find?_cons, Entries.find?_nil] at ht hnone
      grind
  | @field _ _ _ _ _ name _ _ ht hu h =>
      simp only [Bool.false_eq_true, if_false, Entries.find?_cons, Entries.find?_nil] at ht hu
      by_cases hlabel : "label" = name
      · rw [if_pos hlabel] at ht hu
        exact h.ne (Option.some.inj (ht.symm.trans hu))
      · rw [if_neg hlabel] at ht hu
        split at ht
        · obtain rfl := Option.some.inj ht
          rw [if_pos ‹_›] at hu
          obtain rfl := Option.some.inj hu
          cases h with
          | sort hne => exact hne rfl
          | items hk => exact hk rfl
        · cases ht

/-- With a label that fits, a grid of another size is a mismatch of shapes in all orders. With a label
    of another kind there are disagreements of both kinds. -/
theorem diagnose_reordered_grid :
    (gridSample false).WellFormed ∧ (∀ label, (gridSeen label).WellFormed) ∧
      (∀ d' o', (gridSample false).Reordered d' → (gridSeen .string).Reordered o' →
        d'.diagnose o' = some .shape) ∧
      Disagrees .type (gridSample false) (gridSeen .integer) ∧
      Disagrees .shape (gridSample false) (gridSeen .integer) := by
  have hd : (gridSample false).WellFormed := by decide
  have ho : ∀ label, (gridSeen label).WellFormed := by
    intro label
    cases label <;> decide
  obtain ⟨-, -, hsame⟩ := diagnose_reordered hd (ho .string)
  obtain ⟨-, hkinds, -⟩ := diagnose_reordered hd (ho .integer)
  refine ⟨hd, ho, fun d' o' hdd hoo => ?_, ?_, ?_⟩
  · exact hsame.2 (fun h => gridSample_agrees h.1) d' o' hdd hoo
  · exact (hkinds .type).1 ⟨_, _, .refl hd, .refl (ho .integer), by decide⟩
  · exact (hkinds .shape).1 ⟨_, _, gridSample_reordered, .refl (ho .integer), by decide⟩

/-- **The order of declared fields may decide what is diagnosed**: with the label in front a mismatch
    of types, with the grid in front a mismatch of shapes. -/
theorem not_diagnose_reordered :
    (gridSample false).WellFormed ∧ (gridSeen .integer).WellFormed ∧
      (gridSample false).Reordered (gridSample true) ∧
      (gridSeen .integer).Reordered (gridSeen .integer) ∧
      (gridSample false).diagnose (gridSeen .integer) = some .type ∧
      (gridSample true).diagnose (gridSeen .integer) = some .shape := by
  have ho : (gridSeen .integer).WellFormed := by decide
  exact ⟨by decide, ho, gridSample_reordered, .refl ho, by decide, by decide⟩

end TypeSpec

end SchemaFlow
