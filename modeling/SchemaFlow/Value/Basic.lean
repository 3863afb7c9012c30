import SchemaFlow.Entries
import SchemaFlow.TypeSpec.Basic

/-!
# Values

The data of a pipeline: primitive values, types that stand for absent data, and containers.
Containers are nodes of a graph, so that they can be shared and can contain themselves; everything
else is a value in itself. Values come in families, and a family has a founder, a value too, from
which its members have the parts that they do not list themselves.

* `Graph.unvisited_cons_lt`: visiting a new node leaves fewer nodes to visit. Every walk through a
  graph ends for this reason.
-/

namespace SchemaFlow

/-! ## 1. Values and nodes -/

/-- The families of values. The members of a family share the parts of its founder; what all
    ordinary objects share stands with the founder of `object`, what all buffers share with that of
    `buffers`. -/
inductive Family
  | object
  | list
  | map
  | instant
  | function
  | text
  | number
  | truth
  | whole
  | symbol
  | buffers
  | buffer (className : String)
  /-- objects of a class whose inside is not modelled -/
  | foreign (className : String)
  /-- the instances of a class -/
  | ofClass (name : String)
deriving Repr, DecidableEq, Inhabited

/-- A value. -/
inductive Value
  | absent
  /-- a place of a list at which no item stands; it is in lists only, and read as an absent value -/
  | hole
  | null
  | bool (b : Bool)
  | text (s : String)
  | number (x : Float)
  | whole (n : Int)
  /-- a point in time in milliseconds; `none` is the invalid one -/
  | instant (ms : Option Int)
  | function
  | symbol
  /-- a type, which stands for data of that type -/
  | type (t : TypeSpec)
  /-- the table of a record's fields, or a schema, seen as a value -/
  | fieldTable (fields : List (String × TypeSpec)) (ancestor : Option TypeSpec)
  /-- the dimensions of an array type, seen as a value -/
  | sizeList (dimensions : List Dimension)
  /-- the operation that drops a name; there is only one -/
  | drop
  /-- a buffer of numbers, all zero -/
  | buffer (className : String) (length : Nat)
  /-- an object whose inside is not modelled -/
  | foreign (className : String)
  /-- the founder of a family -/
  | founder (family : Family)
  /-- a container -/
  | node (id : Nat)
deriving Inhabited

/-- An empty plain table. -/
def Value.emptyTable : Value := .fieldTable [] none

/-- What an object descends from. A sealed object is plain, unless an ancestor is named, and keeps
    its entries for itself. -/
inductive Lineage
  | plain
  /-- nothing at all -/
  | bare
  | ofClass (name : String)
  | sealed (ancestor : Option Value)
deriving Inhabited

/-- A container. A list has nothing of its own but what stands at its places; its other parts are
    those of its founder. -/
inductive Node
  | list (items : List Value)
  | object (lineage : Lineage) (entries : Entries Value)
  | map (entries : List (Value × Value))

instance : Inhabited Node := ⟨.object .plain []⟩

/-- The containers of a computation. -/
structure Graph where
  nodes : Array Node := #[]

namespace Graph

/-- The number of nodes. -/
def size (g : Graph) : Nat := g.nodes.size

/-- A node of the graph. -/
def node? (g : Graph) (id : Nat) : Option Node := g.nodes[id]?

/-- A node of the graph; a number beyond it reads as an empty plain object. -/
def node (g : Graph) (id : Nat) : Node := (g.node? id).getD default

/-- Adds a node. -/
def add (g : Graph) (n : Node) : Graph × Value := (⟨g.nodes.push n⟩, .node g.size)

/-- Gives a node another content. -/
def update (g : Graph) (id : Nat) (n : Node) : Graph := ⟨g.nodes.setIfInBounds id n⟩

theorem lt_size_of_node? {g : Graph} {id : Nat} {n : Node} (h : g.node? id = some n) :
    id < g.size := by
  simp only [node?] at h
  exact (Array.getElem?_eq_some_iff.1 h).1

theorem node_of_node? {g : Graph} {id : Nat} {n : Node} (h : g.node? id = some n) :
    g.node id = n := by
  rw [node, h]
  rfl

/-- A new node stands behind all others, which stay as they are. -/
theorem node?_add (g : Graph) (n : Node) (id : Nat) :
    (g.add n).1.node? id = if id = g.size then some n else g.node? id :=
  Array.getElem?_push

theorem size_add (g : Graph) (n : Node) : (g.add n).1.size = g.size + 1 := Array.size_push _

/-! ## 2. Walks -/

/-- The number of nodes that a walk has not visited. -/
def unvisited (g : Graph) (visited : List Nat) : Nat :=
  (List.range g.size).countP fun id => !visited.contains id

/-- A stronger test that fails where a weaker one holds is met less often. -/
theorem countP_lt_countP {p q : Nat → Bool} {a : Nat} (hpq : ∀ i, p i = true → q i = true)
    (hp : p a = false) (hq : q a = true) : ∀ l : List Nat, a ∈ l → l.countP p < l.countP q
  | [], h => by simp at h
  | b :: l, h => by
      have hle : l.countP p ≤ l.countP q := List.countP_mono_left fun i _ => hpq i
      rw [List.countP_cons, List.countP_cons]
      by_cases hb : b = a
      · subst hb
        simp only [hp, hq, Bool.false_eq_true, ↓reduceIte]
        omega
      · have hl : a ∈ l := (List.mem_cons.1 h).resolve_left fun e => hb e.symm
        have ih := countP_lt_countP hpq hp hq l hl
        have hi : (if p b = true then 1 else 0) ≤ (if q b = true then 1 else 0) := by
          by_cases hpb : p b = true
          · simp [hpb, hpq b hpb]
          · simp [hpb]
        omega

/-- **Visiting a new node leaves fewer nodes to visit.** -/
theorem unvisited_cons_lt {g : Graph} {id : Nat} {visited : List Nat} (hid : id < g.size)
    (hnew : id ∉ visited) : g.unvisited (id :: visited) < g.unvisited visited := by
  apply countP_lt_countP (a := id)
  · intro i hi
    simp only [List.contains_cons, Bool.not_or, Bool.and_eq_true] at hi
    exact hi.2
  · simp
  · simpa using hnew
  · exact List.mem_range.2 hid

end Graph

end SchemaFlow
