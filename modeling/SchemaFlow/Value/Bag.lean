import SchemaFlow.Filling
import SchemaFlow.Value.Parts

/-!
# Bags

A bag is a table of values under construction: the parameters handed to a nested chain, and the
data a stage works on. Names that it does not hold are looked up in the value behind it, at first
the founder of all objects. Storing a container under `__proto__` puts it behind the bag instead of
into it.

A `Source` is what names are looked up in: a value as it was given, or a bag.

* `Bag.store_eq_insert`: over the founder of all objects every name but `__proto__` is free.
-/

namespace SchemaFlow

/-- A table of values with a value behind it, or nothing. -/
structure Bag where
  entries : Entries Value := []
  behind : Option Value := some (.founder .object)

namespace Bag

/-- What is found behind a bag. -/
def findBehind (g : Graph) (b : Bag) (name : String) : Found :=
  match b.behind with
  | some v => g.find v name
  | none => .absent

/-- The content under a name. What is worked out for the value behind a bag is not there for the
    bag. -/
def part (g : Graph) (b : Bag) (name : String) : Except Fault Value :=
  match b.entries.find? name with
  | some v => .ok v
  | none =>
    match b.findBehind g name with
    | .absent | .hollow => .ok .absent
    | .free v | .fixed v => .ok v
    | .workedOut _ | .barred => .error .illTyped
    | .ancestor => .ok (b.behind.getD .null)

/-- Puts a value behind a bag, or nothing for `null`; what is no object stays out. -/
def descend (b : Bag) : Value → Bag
  | .null => { b with behind := none }
  | .function => { b with behind := some .function }
  | .founder f => { b with behind := some (.founder f) }
  | v => if v.isObject then { b with behind := some v } else b

/-- Stores a value. A new name must be free behind the bag. -/
def store (g : Graph) (b : Bag) (name : String) (v : Value) : Except Fault Bag :=
  if b.entries.has name then .ok { b with entries := b.entries.insert name v }
  else
    match b.findBehind g name with
    | .absent | .free _ => .ok { b with entries := b.entries.insert name v }
    | .fixed _ | .workedOut _ | .barred => .error .illTyped
    | .ancestor => .ok (b.descend v)
    | .hollow => .ok b

/-- Takes a name out. -/
def remove (b : Bag) (name : String) : Bag := { b with entries := b.entries.erase name }

/-- Whether a bag is a plain table. -/
def isPlain (b : Bag) : Bool :=
  match b.behind with
  | none | some (.founder .object) => true
  | _ => false

/-- The families that a bag descends from, the nearest first. -/
def families (g : Graph) (b : Bag) : List Family :=
  match b.behind with
  | some v => g.families v
  | none => []

/-- **Over the founder of all objects every name but the ancestor's is free.** -/
theorem store_eq_insert (g : Graph) (es : Entries Value) {name : String} (v : Value)
    (hn : name ≠ ancestorName) :
    store g { entries := es } name v = .ok { entries := es.insert name v } := by
  simp only [store, findBehind, Graph.find_founderObject]
  rcases Family.find_object hn with h | h <;> simp [h]

end Bag

/-- What names are looked up in. -/
inductive Source
  | value (v : Value)
  | bag (b : Bag)

namespace Source

/-- The content under a name. -/
def part (g : Graph) (s : Source) (name : String) : Except Fault Value :=
  match s with
  | value v => g.part v name
  | bag b => b.part g name

/-- The names that a source lists. -/
def names (g : Graph) : Source → List String
  | value v => (g.listed v).names
  | bag b => b.entries.names

end Source

end SchemaFlow
