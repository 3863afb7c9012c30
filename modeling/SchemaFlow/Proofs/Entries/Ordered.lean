import SchemaFlow.Proofs.TypeSpec.WellFormed

/-!
# Tables in order

A table that is filled by `insert` keeps its index names in front, ascending, and the other names
behind them. So a table in that order, filled again entry by entry from its front, is the same table:
every entry goes to the end.

* `Ordered.insert`: what is stored leaves a table in order.
* `Settled.insert_eq_append`: the next entry of a settled table goes to the end.
* `Settled.store`: what is stored under a name that is not empty leaves a table settled.
-/

namespace SchemaFlow

namespace Entries

variable {α : Type}

/-! ## 1. The place of a name -/

/-- The place of a name among others: an index name by its index, the others behind all of these. -/
def rank (name : String) : Nat := (index? name).getD (lastIndex + 1)

theorem index?_le_lastIndex {name : String} {i : Nat} (h : index? name = some i) :
    i ≤ lastIndex := by
  rw [index?, Option.filter_eq_some_iff] at h
  simpa using h.2

theorem precedes_iff {new old : String} : precedes new old = true ↔ rank new < rank old := by
  unfold precedes rank
  cases hnew : index? new with
  | none =>
      cases hold : index? old with
      | none => simp
      | some j =>
          have hj := index?_le_lastIndex hold
          simp only [Bool.false_eq_true, Option.getD_none, Option.getD_some, false_iff]
          omega
  | some i =>
      have hi := index?_le_lastIndex hnew
      cases hold : index? old with
      | none =>
          simp only [Option.getD_none, Option.getD_some, true_iff]
          omega
      | some j => simp

/-- The names stand in order of their places. -/
def Ordered (es : Entries α) : Prop := es.Pairwise fun e later => rank e.1 ≤ rank later.1

instance (es : Entries α) : Decidable es.Ordered := inferInstanceAs (Decidable (List.Pairwise _ _))

theorem ordered_nil : Ordered ([] : Entries α) := List.Pairwise.nil

theorem Ordered.replace {es : Entries α} (h : es.Ordered) (name : String) (v : α) :
    (es.replace name v).Ordered := by
  refine List.pairwise_map.2 (h.imp fun {e later} hle => ?_)
  -- an entry is replaced under its own name
  have hsame : ∀ e : String × α, (if e.1 = name then (name, v) else e).1 = e.1 := by
    intro e
    split
    · rename_i he
      exact he.symm
    · rfl
  rw [hsame e, hsame later]
  exact hle

theorem Ordered.insertNew {name : String} {v : α} : ∀ {es : Entries α}, es.Ordered →
    (Entries.insertNew name v es).Ordered
  | [], _ => List.pairwise_singleton _ _
  | e :: es, h => by
      obtain ⟨he, hes⟩ := List.pairwise_cons.1 h
      rw [Entries.insertNew]
      split
      · rename_i hbefore
        have hlt := precedes_iff.1 hbefore
        refine List.pairwise_cons.2 ⟨fun later hlater => ?_, h⟩
        rcases List.mem_cons.1 hlater with rfl | hlater
        · exact Nat.le_of_lt hlt
        · exact Nat.le_trans (Nat.le_of_lt hlt) (he later hlater)
      · rename_i hbehind
        have hle : rank e.1 ≤ rank name := Nat.le_of_not_lt fun hlt => hbehind (precedes_iff.2 hlt)
        refine List.pairwise_cons.2 ⟨fun later hlater => ?_, Ordered.insertNew hes⟩
        rcases mem_insertNew hlater with hlater | rfl
        · exact he later hlater
        · exact hle

/-- **An entry that is stored in an ordered table leaves it in order.** -/
theorem Ordered.insert {es : Entries α} (h : es.Ordered) (name : String) (v : α) :
    (es.insert name v).Ordered := by
  unfold Entries.insert
  split
  · exact h.replace name v
  · exact h.insertNew

theorem Ordered.erase {es : Entries α} (h : es.Ordered) (name : String) :
    (es.erase name).Ordered := List.Pairwise.filter _ h

/-! ## 2. Tables that are filled in order -/

theorem insertNew_eq_append {name : String} {v : α} : ∀ {es : Entries α},
    (∀ e ∈ es, rank e.1 ≤ rank name) → insertNew name v es = es ++ [(name, v)]
  | [], _ => rfl
  | e :: es, h => by
      obtain ⟨he, hes⟩ := List.forall_mem_cons.1 h
      rw [insertNew, if_neg fun hbefore => absurd (precedes_iff.1 hbefore) (Nat.not_lt.2 he),
        insertNew_eq_append hes, List.cons_append]

/-- A table whose names are distinct, in order, and proper. -/
structure Settled (es : Entries α) : Prop where
  distinct : es.Distinct
  ordered : es.Ordered
  proper : ∀ e ∈ es, ProperName e.1

instance (es : Entries α) : Decidable es.Settled :=
  decidable_of_iff (es.Distinct ∧ es.Ordered ∧ ∀ e ∈ es, ProperName e.1)
    ⟨fun h => ⟨h.1, h.2.1, h.2.2⟩, fun h => ⟨h.distinct, h.ordered, h.proper⟩⟩

namespace Settled

theorem nil : Settled ([] : Entries α) :=
  ⟨distinct_nil, ordered_nil, fun _ h => absurd h List.not_mem_nil⟩

theorem insert {es : Entries α} (h : es.Settled) {name : String} (hn : ProperName name) (v : α) :
    (es.insert name v).Settled where
  distinct := h.distinct.insert name v
  ordered := h.ordered.insert name v
  proper e he := by
    rcases mem_insert he with he | rfl
    · exact h.proper e he
    · exact hn

theorem erase {es : Entries α} (h : es.Settled) (name : String) : (es.erase name).Settled where
  distinct := h.distinct.erase name
  ordered := h.ordered.erase name
  proper e he := h.proper e (mem_erase he)

/-- **The next entry of a settled table goes to the end.** -/
theorem insert_eq_append {done rest : Entries α} {name : String} {v : α}
    (h : Settled (done ++ (name, v) :: rest)) : done.insert name v = done ++ [(name, v)] := by
  have hnew : done.find? name = none := by
    refine find?_eq_none_iff.2 fun hmem => ?_
    have hd : (done ++ (name, v) :: rest).names.Nodup := h.distinct
    rw [names, List.map_append, List.map_cons, List.nodup_append] at hd
    exact hd.2.2 name hmem name List.mem_cons_self rfl
  rw [Entries.insert, if_neg (by simp [has, hnew])]
  exact insertNew_eq_append fun e he =>
    (List.pairwise_append.1 h.ordered).2.2 e he (name, v) List.mem_cons_self

/-- **What is stored under a name that is not empty leaves a table settled.** -/
theorem store {f f' : Filling α} (h : f.entries.Settled) {kept : List String} {name : String}
    {v : α} (hname : name ≠ "") (hstore : f.store kept name v = some f') :
    f'.entries.Settled := by
  by_cases hn : name = ancestorName
  · subst hn
    rw [Filling.store_ancestor] at hstore
    obtain rfl := Option.some.inj hstore
    exact h
  · rw [(Filling.store_entry hn hstore).1]
    exact h.insert ⟨hname, hn⟩ v

/-- **The next entry of a settled table is stored at the end**, where no name is kept. -/
theorem store_eq {f : Filling α} {rest : Entries α} {name : String} {v : α}
    (h : Settled (f.entries ++ (name, v) :: rest)) (hkept : f.kept = []) (kept : List String) :
    f.store kept name v = some { f with entries := f.entries ++ [(name, v)] } := by
  have hproper : ProperName name := h.proper (name, v) (by simp)
  rw [Filling.store_of_nothing_kept kept v hproper.2 hkept, h.insert_eq_append]

end Settled

/-! ## 3. Settled tables of contents with a property -/

/-- A settled table whose contents all have a property. -/
structure SettledOf (P : α → Prop) (es : Entries α) : Prop where
  table : es.Settled
  contents : ∀ e ∈ es, P e.2

namespace SettledOf

variable {P : α → Prop} {es : Entries α}

theorem nil : SettledOf P ([] : Entries α) := ⟨.nil, fun _ h => absurd h List.not_mem_nil⟩

theorem insert (h : SettledOf P es) {name : String} {v : α} (hn : ProperName name) (hv : P v) :
    SettledOf P (es.insert name v) where
  table := h.table.insert hn v
  contents e he := by
    rcases mem_insert he with he | rfl
    · exact h.contents e he
    · exact hv

theorem erase (h : SettledOf P es) (name : String) : SettledOf P (es.erase name) where
  table := h.table.erase name
  contents e he := h.contents e (mem_erase he)

theorem find? (h : SettledOf P es) {name : String} {v : α} (hv : es.find? name = some v) : P v :=
  h.contents _ (mem_of_find? hv)

end SettledOf

end Entries

end SchemaFlow
