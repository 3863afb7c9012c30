/-!
# Tables of named entries

A table is a list of entries, each with a name of its own, and the order of the list is the order
in which the table is read. Two disciplines fill it:

* `put` keeps the order of arrival;
* `insert` keeps the **index names**, the canonical decimals below 2³² − 1, in front and in
  ascending order, and all other names in order of arrival.

Both leave a name where it stands when its entry is replaced. The main statements read every
operation through `find?`: `find?_put`, `find?_insert`, `find?_erase`.
-/

namespace SchemaFlow

/-- A table: entries in reading order. -/
abbrev Entries (α : Type) := List (String × α)

namespace Entries

variable {α β : Type}

/-- The entry of a name, the first one if a name occurs twice. -/
def find? : Entries α → String → Option α
  | [], _ => none
  | (k, v) :: rest, name => if k = name then some v else find? rest name

/-- Whether a name has an entry. -/
def has (es : Entries α) (name : String) : Bool := (es.find? name).isSome

/-- The names, in reading order. -/
def names (es : Entries α) : List String := es.map Prod.fst

/-- The contents, in reading order. -/
def contents (es : Entries α) : List α := es.map Prod.snd

/-- Removes a name. -/
def erase (es : Entries α) (name : String) : Entries α := es.filter fun e => e.1 ≠ name

/-- Replaces the entry of a name that stands in the table. -/
def replace (es : Entries α) (name : String) (v : α) : Entries α :=
  es.map fun e => if e.1 = name then (name, v) else e

/-- Stores an entry; a new name goes to the end. -/
def put (es : Entries α) (name : String) (v : α) : Entries α :=
  if es.has name then es.replace name v else es ++ [(name, v)]

/-! ## 1. Index names -/

/-- The number that a canonical decimal denotes: `0`, or digits of which the first is not `0`. -/
def canonicalDecimal? (cs : List Char) : Option Nat :=
  if cs.isEmpty || !cs.all Char.isDigit || (1 < cs.length && cs.head? == some '0') then none
  else some (cs.foldl (fun n c => 10 * n + (c.toNat - 48)) 0)

/-- The largest index name. -/
def lastIndex : Nat := 4294967294

/-- The index that a name spells, if it is an index name. -/
def index? (name : String) : Option Nat :=
  (canonicalDecimal? name.toList).filter (· ≤ lastIndex)

/-- Whether a new entry named `new` is read before an entry named `old`: an index name before all
    names that are not, and before the larger index names. -/
def precedes (new old : String) : Bool :=
  match index? new, index? old with
  | some i, some j => i < j
  | some _, none => true
  | none, _ => false

/-- Stores an entry under a new name, in its place among the others. -/
def insertNew (name : String) (v : α) : Entries α → Entries α
  | [] => [(name, v)]
  | e :: rest => if precedes name e.1 then (name, v) :: e :: rest else e :: insertNew name v rest

/-- Stores an entry; a new name goes to its place. -/
def insert (es : Entries α) (name : String) (v : α) : Entries α :=
  if es.has name then es.replace name v else insertNew name v es

/-- The table that arises when entries are stored one after the other. -/
def ofList (es : List (String × α)) : Entries α :=
  es.foldl (fun acc e => acc.insert e.1 e.2) []

/-! ## 2. What the operations do to look-ups -/

@[simp] theorem find?_nil (name : String) : find? ([] : Entries α) name = none := rfl

theorem find?_cons (e : String × α) (es : Entries α) (name : String) :
    find? (e :: es) name = if e.1 = name then some e.2 else find? es name := rfl

theorem has_eq_true_iff {es : Entries α} {name : String} :
    es.has name = true ↔ ∃ v, es.find? name = some v := by
  simp [has, Option.isSome_iff_exists]

theorem has_eq_false_iff {es : Entries α} {name : String} :
    es.has name = false ↔ es.find? name = none := by
  simp [has]

theorem find?_append (name : String) : ∀ es fs : Entries α,
    find? (es ++ fs) name = (find? es name).or (find? fs name)
  | [], _ => by simp
  | e :: es, fs => by
      rw [List.cons_append, find?_cons, find?_cons, find?_append name es fs]
      split <;> simp

theorem find?_erase (name other : String) : ∀ es : Entries α,
    find? (es.erase name) other = if other = name then none else find? es other
  | [] => by simp [erase]
  | e :: es => by
      have ih := find?_erase name other es
      simp only [erase] at ih ⊢
      rw [List.filter_cons]
      by_cases hk : e.1 = name
      · rw [if_neg (by simp [hk]), ih, find?_cons, hk]
        grind
      · rw [if_pos (by simp [hk]), find?_cons, find?_cons, ih]
        grind

theorem find?_replace (name other : String) (v : α) : ∀ es : Entries α,
    find? (es.replace name v) other =
      if other = name then (find? es name).map (fun _ => v) else find? es other
  | [] => by simp [replace]
  | e :: es => by
      have ih := find?_replace name other v es
      simp only [replace] at ih ⊢
      rw [List.map_cons, find?_cons, ih, find?_cons, find?_cons]
      grind

theorem find?_insertNew (name other : String) (v : α) : ∀ es : Entries α,
    es.find? name = none →
      find? (insertNew name v es) other = if other = name then some v else find? es other
  | [], _ => by simp [insertNew, find?_cons, eq_comm]
  | e :: es, h => by
      rw [find?_cons] at h
      have hk : e.1 ≠ name := fun hk => by simp [hk] at h
      rw [if_neg hk] at h
      have ih := find?_insertNew name other v es h
      unfold insertNew
      split
      · rw [find?_cons]
        grind
      · rw [find?_cons, find?_cons, ih]
        by_cases ho : other = name
        · simp [ho, hk]
        · simp [ho]

/-- **`put` is seen by its own name only.** -/
theorem find?_put (es : Entries α) (name other : String) (v : α) :
    find? (es.put name v) other = if other = name then some v else find? es other := by
  unfold put
  split
  · rename_i h
    obtain ⟨w, hw⟩ := has_eq_true_iff.1 h
    rw [find?_replace, hw]
    simp
  · rename_i h
    have hn : es.find? name = none := has_eq_false_iff.1 (by simpa using h)
    rw [find?_append, find?_cons]
    by_cases ho : other = name
    · subst ho; simp [hn]
    · have : ¬ name = other := fun e => ho e.symm
      simp [ho, this]

/-- **`insert` is seen by its own name only.** -/
theorem find?_insert (es : Entries α) (name other : String) (v : α) :
    find? (es.insert name v) other = if other = name then some v else find? es other := by
  unfold insert
  split
  · rename_i h
    obtain ⟨w, hw⟩ := has_eq_true_iff.1 h
    rw [find?_replace, hw]
    simp
  · rename_i h
    exact find?_insertNew name other v es (has_eq_false_iff.1 (by simpa using h))

end Entries

end SchemaFlow
