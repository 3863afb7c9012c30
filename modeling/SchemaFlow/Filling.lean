import SchemaFlow.Entries

/-!
# Filling a table

A table is filled entry by entry, names in the order of `Entries.insert`. One name is special:
what is stored under `__proto__` is no entry but becomes the table's **ancestor**. A sealed ancestor
keeps the names of its parts: a new entry cannot take one of them.

* `store_entry`: away from the special name a successful store is an insertion.
* `store_ancestor`: the special name leaves the entries as they are.
-/

namespace SchemaFlow

/-- The name under which a table keeps its ancestor. -/
def ancestorName : String := "__proto__"

/-- A table on its way: the entries stored so far, the ancestor if one was given, and the names
    that the ancestor keeps for itself. -/
structure Filling (α : Type) where
  entries : Entries α := []
  ancestor : Option α := none
  kept : List String := []

namespace Filling

variable {α : Type}

/-- Stores one entry; `none` when its name is kept by the ancestor. `kept` are the names that the
    entry itself keeps where it becomes the ancestor. -/
def store (f : Filling α) (kept : List String) (name : String) (v : α) : Option (Filling α) :=
  if name = ancestorName then some { f with ancestor := some v, kept := kept }
  else if !f.entries.has name && f.kept.contains name then none
  else some { f with entries := f.entries.insert name v }

theorem store_ancestor (f : Filling α) (kept : List String) (v : α) :
    f.store kept ancestorName v = some { f with ancestor := some v, kept := kept } := by
  simp [store]

theorem store_entry {f f' : Filling α} {kept : List String} {name : String} {v : α}
    (hn : name ≠ ancestorName) (h : f.store kept name v = some f') :
    f'.entries = f.entries.insert name v ∧ f'.ancestor = f.ancestor ∧ f'.kept = f.kept := by
  rw [store, if_neg hn] at h
  split at h
  · simp at h
  · obtain rfl := Option.some.inj h
    exact ⟨rfl, rfl, rfl⟩

/-- Where nothing is kept every name is free. -/
theorem store_of_nothing_kept {f : Filling α} {name : String} (kept : List String) (v : α)
    (hn : name ≠ ancestorName) (hk : f.kept = []) :
    f.store kept name v = some { f with entries := f.entries.insert name v } := by
  rw [store, if_neg hn, if_neg]
  simp [hk]

end Filling

end SchemaFlow
