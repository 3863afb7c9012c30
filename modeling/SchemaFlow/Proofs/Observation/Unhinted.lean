import SchemaFlow.Proofs.Observation.Conformance

/-!
# What is seen when nothing is expected

A value that is observed without a hint is never seen as a record (`unhinted_ne_record`): a plain
object is a mapping then, and of the elements of a container only the first is seen. So a value need
not conform to the type that it is seen with. Where it does it is uniform (`Graph.Uniform`).

The fields of a plain object are seen in this way by an observation that expects a record and knows
none of its fields (`find?_unhinted`).
-/

namespace SchemaFlow

variable {g : Graph} {v : Value}

/-! ## 1. No records -/

theorem listType_ne_record {obs : Hint → Value → Except Fault TypeSpec} {hint : Hint}
    {items : List Value} (fs : Schema) (ancestor : Option TypeSpec) :
    listType obs hint items ≠ .ok (.record fs ancestor) := by
  intro h
  obtain ⟨_, h, _⟩ := listType_eq_ok h
  cases h

theorem tableType_unhinted_ne_record {obs : Hint → Value → Except Fault TypeSpec}
    {entries : Entries Value} (fs : Schema) (ancestor : Option TypeSpec) :
    tableType obs .none entries ≠ .ok (.record fs ancestor) := by
  intro h
  rcases tableType_eq_ok h with ⟨hsort, _⟩ | ⟨_, _, h, _⟩
  · cases hsort
  · cases h

theorem nodeType_unhinted_ne_record {obs : Hint → Value → Except Fault TypeSpec}
    {keyObs : Value → Except Fault TypeSpec} {id : Nat} (fs : Schema) (ancestor : Option TypeSpec) :
    g.nodeType obs keyObs .none id ≠ .ok (.record fs ancestor) := by
  intro h
  have htable := (nodeType_of_record h).2 .none
  rw [h] at htable
  exact tableType_unhinted_ne_record fs ancestor htable.symm

/-- **Without a hint nothing but a type is seen as a record.** -/
theorem unhinted_ne_record (hv : ∀ t, v ≠ .type t) (fs : Schema) (ancestor : Option TypeSpec) :
    g.observe none v ≠ .ok (.record fs ancestor) := by
  unfold Graph.observe Hint.ofType?
  cases v with
  | type t => exact absurd rfl (hv t)
  | fieldTable gs other =>
      cases other with
      | none =>
          rw [Graph.observeAt]
          exact tableType_unhinted_ne_record fs ancestor
      | some a =>
          rw [Graph.observeAt]
          exact handle_ne_record _ fs ancestor
  | drop =>
      rw [Graph.observeAt]
      exact tableType_unhinted_ne_record fs ancestor
  | sizeList ds =>
      rw [Graph.observeAt]
      exact listType_ne_record fs ancestor
  | founder f =>
      by_cases hf : f = .list
      · subst hf
        rw [Graph.observeAt]
        exact listType_ne_record fs ancestor
      · rw [observeAt_founder g [] [] _ hf]
        intro h
        have htable := founderType_of_record h .none
        rw [h] at htable
        exact tableType_unhinted_ne_record fs ancestor htable.symm
  | node id =>
      rw [observeAt_node g _ List.not_mem_nil fun _ _ => List.not_mem_nil]
      exact nodeType_unhinted_ne_record fs ancestor
  | _ =>
      rw [observeAt_leaf g _ _ _ rfl]
      exact leafType_ne_record (by simp) fs ancestor

/-! ## 2. Uniform values -/

/-- A value conforms to the type that it is seen with when nothing is expected of it. -/
def Graph.Uniform (g : Graph) (v : Value) : Prop :=
  ∀ t, g.observe none v = .ok t → g.Conforms t v

/-! ## 3. Fields of which nothing is expected -/

/-- A field of a plain object is seen as it is on its own where no field is expected, and only a
    field that is there is seen. -/
theorem find?_unhinted (hg : g.NamesDistinct) (hv : g.Tame v) (hrecord : g.looksRecord v = true)
    {out : Filling TypeSpec}
    (hout : observeFields (fun hint w => g.observeAt [] [] hint w)
      (Hint.part "fields" (.type TypeSpec.emptyRecord)) {} (g.listed v) = .ok out)
    {name : String} (hname : name ≠ ancestorName) {t : TypeSpec}
    (ht : out.entries.find? name = some t) :
    (g.fieldAt v name).isAbsent = false ∧ g.observe none (g.fieldAt v name) = .ok t := by
  unfold Graph.fieldAt
  rw [if_pos hrecord]
  exact (find?_observeFields_iff (hg.listed hv hrecord) hname hout).1 ht

end SchemaFlow
