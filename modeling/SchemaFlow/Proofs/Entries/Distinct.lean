import SchemaFlow.Filling

/-!
# Tables with distinct names

A table that was filled by `insert` or `put` holds no name twice. For such a table looking a name up
and finding an entry in the list are the same thing (`mem_iff_find?`), and every operation keeps the
names distinct (`Distinct.insert`, `Distinct.put`, `Distinct.erase`). What a name has already is stored
again without a change (`Distinct.insert_of_find?`).
-/

namespace SchemaFlow

namespace Entries

variable {α : Type}

/-- No name stands twice. -/
def Distinct (es : Entries α) : Prop := es.names.Nodup

instance (es : Entries α) : Decidable es.Distinct := inferInstanceAs (Decidable (List.Nodup _))

/-! ## 1. Look-ups and entries -/

theorem mem_of_find? {name : String} {v : α} : ∀ {es : Entries α},
    es.find? name = some v → (name, v) ∈ es
  | [], h => by simp at h
  | (k, w) :: es, h => by
      rw [find?_cons] at h
      split at h
      · rename_i hk
        obtain rfl : w = v := Option.some.inj h
        obtain rfl : k = name := hk
        exact List.mem_cons_self
      · exact List.mem_cons_of_mem _ (mem_of_find? h)

theorem find?_eq_none_iff {name : String} : ∀ {es : Entries α},
    es.find? name = none ↔ name ∉ es.names
  | [] => by simp [names]
  | (k, w) :: es => by
      have ih : find? es name = none ↔ name ∉ names es := find?_eq_none_iff
      rw [find?_cons]
      simp only [names, List.map_cons, List.mem_cons, not_or] at ih ⊢
      by_cases hk : k = name
      · simp [hk]
      · rw [if_neg hk, ih]
        exact ⟨fun h => ⟨fun e => hk e.symm, h⟩, fun h => h.2⟩

theorem distinct_nil : Distinct ([] : Entries α) := List.nodup_nil

theorem distinct_cons_iff {name : String} {v : α} {es : Entries α} :
    Distinct ((name, v) :: es) ↔ es.find? name = none ∧ es.Distinct := by
  rw [find?_eq_none_iff]
  exact List.nodup_cons

/-- The entry of a name is the only one. -/
theorem Distinct.find?_of_mem {name : String} {v : α} : ∀ {es : Entries α},
    es.Distinct → (name, v) ∈ es → es.find? name = some v
  | [], _, h => by simp at h
  | (k, w) :: es, hd, h => by
      obtain ⟨hk, hd⟩ := distinct_cons_iff.1 hd
      rcases List.mem_cons.1 h with h | h
      · obtain ⟨rfl, rfl⟩ := Prod.mk.inj h
        rw [find?_cons, if_pos rfl]
      · have hv := hd.find?_of_mem h
        have hne : k ≠ name := fun e => by
          rw [e, hv] at hk
          cases hk
        rw [find?_cons, if_neg hne, hv]

theorem Distinct.mem_iff_find? {name : String} {v : α} {es : Entries α} (hd : es.Distinct) :
    (name, v) ∈ es ↔ es.find? name = some v :=
  ⟨hd.find?_of_mem, mem_of_find?⟩

/-! ## 2. What the operations hold -/

theorem mem_erase {name : String} {e : String × α} {es : Entries α} (h : e ∈ es.erase name) :
    e ∈ es := (List.mem_filter.1 h).1

theorem mem_replace {name : String} {v : α} {e : String × α} {es : Entries α}
    (h : e ∈ es.replace name v) : e ∈ es ∨ e = (name, v) := by
  obtain ⟨e', he', rfl⟩ := List.mem_map.1 h
  by_cases hk : e'.1 = name
  · exact Or.inr (if_pos hk)
  · rw [if_neg hk]
    exact Or.inl he'

theorem mem_insertNew {name : String} {v : α} {e : String × α} : ∀ {es : Entries α},
    e ∈ insertNew name v es → e ∈ es ∨ e = (name, v)
  | [], h => Or.inr (List.mem_singleton.1 h)
  | e' :: es, h => by
      unfold insertNew at h
      split at h
      · rcases List.mem_cons.1 h with h | h
        · exact Or.inr h
        · exact Or.inl h
      · rcases List.mem_cons.1 h with h | h
        · exact Or.inl (h ▸ List.mem_cons_self)
        · exact (mem_insertNew h).imp (List.mem_cons_of_mem _) id

/-- An insertion brings no other entry than its own. -/
theorem mem_insert {name : String} {v : α} {e : String × α} {es : Entries α}
    (h : e ∈ es.insert name v) : e ∈ es ∨ e = (name, v) := by
  unfold insert at h
  split at h
  · exact mem_replace h
  · exact mem_insertNew h

/-! ## 3. The operations keep names distinct -/

theorem names_replace (name : String) (v : α) : ∀ es : Entries α,
    (es.replace name v).names = es.names
  | [] => rfl
  | e :: es => by
      have ih := names_replace name v es
      simp only [replace, names, List.map_cons] at ih ⊢
      rw [ih]
      by_cases hk : e.1 = name
      · rw [if_pos hk, hk]
      · rw [if_neg hk]

theorem names_insertNew (name : String) (v : α) : ∀ es : Entries α,
    (insertNew name v es).names.Perm (name :: es.names)
  | [] => List.Perm.refl _
  | e :: es => by
      unfold insertNew
      split
      · exact List.Perm.refl _
      · exact ((names_insertNew name v es).cons e.1).trans (List.Perm.swap _ _ _)

theorem Distinct.erase {es : Entries α} (hd : es.Distinct) (name : String) :
    (es.erase name).Distinct :=
  (List.Sublist.map Prod.fst List.filter_sublist).nodup hd

theorem Distinct.insert {es : Entries α} (hd : es.Distinct) (name : String) (v : α) :
    (es.insert name v).Distinct := by
  unfold Distinct Entries.insert
  split
  · rw [names_replace]
    exact hd
  · rename_i h
    have hn : es.find? name = none := has_eq_false_iff.1 (by simpa using h)
    exact (names_insertNew name v es).nodup_iff.2 (List.nodup_cons.2 ⟨find?_eq_none_iff.1 hn, hd⟩)

theorem Distinct.put {es : Entries α} (hd : es.Distinct) (name : String) (v : α) :
    (es.put name v).Distinct := by
  unfold Distinct Entries.put
  split
  · rw [names_replace]
    exact hd
  · rename_i h
    have hn : es.find? name = none := has_eq_false_iff.1 (by simpa using h)
    have hperm : (es ++ [(name, v)]).names.Perm (name :: es.names) := by
      rw [names, List.map_append]
      exact List.perm_append_comm
    exact hperm.nodup_iff.2 (List.nodup_cons.2 ⟨find?_eq_none_iff.1 hn, hd⟩)

/-! ## 4. Operations that change nothing -/

/-- Storing what a name has already changes nothing. -/
theorem Distinct.insert_of_find? {es : Entries α} (hd : es.Distinct) {name : String} {v : α}
    (h : es.find? name = some v) : es.insert name v = es := by
  have hkept : ∀ e ∈ es, (if e.1 = name then (name, v) else e) = e := by
    rintro ⟨k, w⟩ he
    split
    · rename_i hk
      obtain rfl : k = name := hk
      obtain rfl : w = v := Option.some.inj ((hd.find?_of_mem he).symm.trans h)
      rfl
    · rfl
  rw [Entries.insert, if_pos (has_eq_true_iff.2 ⟨v, h⟩), replace, List.map_congr_left hkept,
    List.map_id']

/-- Removing a name that has no entry changes nothing. -/
theorem erase_of_find?_none {es : Entries α} {name : String} (h : es.find? name = none) :
    es.erase name = es := by
  refine List.filter_eq_self.2 fun e he => decide_eq_true ?_
  rintro rfl
  exact find?_eq_none_iff.1 h (List.mem_map_of_mem he)

end Entries

end SchemaFlow
